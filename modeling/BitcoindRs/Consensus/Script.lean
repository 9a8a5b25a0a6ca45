import BitcoindRs.Consensus.Types
import BitcoindRs.Data.Bytes

/-! Script templates, signature-operation costs and the size limits of the reduced-data deployment. -/

namespace BitcoindRs
open Result Codec

inductive Instruction where
  | pushBytes (bytes : List UInt8)
  | op (opcode : UInt8)
deriving DecidableEq, Repr

/-- The first instruction of a script and what follows it; `none` for a push that runs past the end. -/
def Script.step : UInt8 → List UInt8 → Option (Instruction × List UInt8)
  | opcode, rest =>
    let push (lenBytes : ℕ) : Option (Instruction × List UInt8) :=
      let n := leNat (rest.take lenBytes)
      if rest.length < lenBytes + n then none
      else some (.pushBytes ((rest.drop lenBytes).take n), rest.drop (lenBytes + n))
    if opcode ≤ 0x4b then
      if rest.length < opcode.toNat then none
      else some (.pushBytes (rest.take opcode.toNat), rest.drop opcode.toNat)
    else if opcode = 0x4c then push 1
    else if opcode = 0x4d then push 2
    else if opcode = 0x4e then push 4
    else some (.op opcode, rest)

/-- The instructions of a script; a malformed push is reported once and ends the list. -/
def Script.instructions (script : Script) : List (Option Instruction) :=
  let rec go : ℕ → List UInt8 → List (Option Instruction)
    | 0, _ => []
    | _, [] => []
    | fuel + 1, opcode :: rest => match Script.step opcode rest with
      | none => [none]
      | some (instruction, rest) => some instruction :: go fuel rest
  go script.length script

def Script.isOpReturn (script : Script) : Bool := script.head? == some 0x6a

def Script.isP2sh (script : Script) : Bool :=
  script.length == 23 && script[0]? == some 0xa9 && script[1]? == some 0x14 && script[22]? == some 0x87

def Script.isWitnessProgram (script : Script) : Bool := match script with
  | version :: push :: program =>
    4 ≤ script.length && script.length ≤ 42 && (version == 0 || (0x51 ≤ version && version ≤ 0x60)) &&
      2 ≤ push && push ≤ 40 && program.length == push.toNat
  | _ => false

def Script.isProgram (version push : UInt8) (script : Script) : Bool :=
  script.length == push.toNat + 2 && script[0]? == some version && script[1]? == some push

def Script.isP2wpkh (script : Script) : Bool := Script.isProgram 0x00 20 script
def Script.isP2wsh (script : Script) : Bool := Script.isProgram 0x00 32 script
def Script.isP2tr (script : Script) : Bool := Script.isProgram 0x51 32 script

def Script.isPushOnly (script : Script) : Bool := script.instructions.all fun instruction => match instruction with
  | some (.pushBytes _) => true
  | some (.op opcode) => opcode ≤ 0x60
  | none => false

/-- Signature operations up to the first malformed instruction. A multisig counts its key number when the count is
accurate and the number was pushed just before it, and twenty otherwise. -/
def Script.countSigopsInternal (accurate : Bool) (script : Script) : ℕ :=
  let rec go : List (Option Instruction) → Option ℕ → ℕ
    | [], _ | none :: _, _ => 0
    | some (.pushBytes _) :: rest, _ => go rest none
    | some (.op opcode) :: rest, pushnum =>
      if opcode = 0xac ∨ opcode = 0xad then 1 + go rest pushnum
      else if opcode = 0xae ∨ opcode = 0xaf then (if accurate then pushnum.getD 20 else 20) + go rest pushnum
      else go rest (if 0x51 ≤ opcode ∧ opcode ≤ 0x60 then some (opcode.toNat - 0x50) else none)
  go script.instructions none

def Script.countSigopsLegacy (script : Script) : ℕ := Script.countSigopsInternal false script
def Script.countSigops (script : Script) : ℕ := Script.countSigopsInternal true script

def verifyP2sh : ℕ := 1
def verifyDersig : ℕ := 4
def verifyNulldummy : ℕ := 16
def verifyChecklocktimeverify : ℕ := 512
def verifyChecksequenceverify : ℕ := 1024
def verifyWitness : ℕ := 2048
def verifyTaproot : ℕ := 131072

def scriptFlagsForBlockWithParams (params : DeploymentParameters) (height : ℕ) (hash : BlockHash) : ℕ :=
  let base := match params.network with
    | .bitcoin =>
      if hash = 0x00000000000002dc756eebf4f49723ed8d30cc28a5f108eb94b1ba88ac4f9c22 then 0
      else if hash = 0x0000000000000000000f14c35b2d841e986ab5441de8c585d5ffe55ea1e395ad then verifyP2sh ||| verifyWitness
      else verifyP2sh ||| verifyWitness ||| verifyTaproot
    | .testnet =>
      if hash = 0x00000000dd30457c001f4095d208cc1296b0eed002427aa599874af7a432b105 then 0
      else verifyP2sh ||| verifyWitness ||| verifyTaproot
    | _ => verifyP2sh ||| verifyWitness ||| verifyTaproot
  base ||| (if params.buried.bip66 ≤ height then verifyDersig else 0)
    ||| (if params.buried.bip65 ≤ height then verifyChecklocktimeverify else 0)
    ||| (if params.buried.csv ≤ height then verifyChecksequenceverify else 0)
    ||| (if params.buried.segwit ≤ height then verifyNulldummy ||| verifyWitness else 0)

def lastPushBytes (script : Script) : Option (List UInt8) := match script.instructions.getLast? with
  | some (some (.pushBytes bytes)) => some bytes
  | _ => none

def legacySigopCostForTransaction (tx : Transaction) : ℕ :=
  4 * ((tx.input.map fun input => Script.countSigopsLegacy input.scriptSig) ++
    (tx.output.map fun output => Script.countSigopsLegacy output.scriptPubkey)).sum

/-- The redeem script of an input that spends a script hash with pushes only. -/
def redeemScript (input : TxIn) (previousOutput : TxOut) : Option Script :=
  if Script.isP2sh previousOutput.scriptPubkey && Script.isPushOnly input.scriptSig then lastPushBytes input.scriptSig
  else none

def transactionInputSigopCost (input : TxIn) (previousOutput : TxOut) (flags : ℕ) : ℕ :=
  let cost := if flags &&& verifyP2sh ≠ 0
    then 4 * ((redeemScript input previousOutput).map Script.countSigops).getD 0 else 0
  if flags &&& verifyWitness = 0 then cost
  else
    let witnessProgram := if Script.isWitnessProgram previousOutput.scriptPubkey
      then some previousOutput.scriptPubkey else redeemScript input previousOutput
    match witnessProgram with
    | none => cost
    | some program =>
      if Script.isP2wpkh program then cost + 1
      else if Script.isP2wsh program then cost + (input.witness.getLast?.map Script.countSigops).getD 0
      else cost

def transactionSigopCost (tx : Transaction) (previousOutputs : List TxOut) (flags : ℕ) : ℕ :=
  let cost := legacySigopCostForTransaction tx
  if tx.isCoinbase || previousOutputs.length != tx.input.length then cost
  else cost + ((tx.input.zip previousOutputs).map fun (input, out) => transactionInputSigopCost input out flags).sum

def isUnspendableScript (script : Script) : Bool := Script.isOpReturn script || 10000 < script.length

def pushOnlyStackItems (script : Script) : Option (List (List UInt8)) :=
  script.instructions.mapM fun instruction => match instruction with
    | some (.pushBytes bytes) => some bytes
    | some (.op opcode) =>
      if opcode = 0x00 then some []
      else if opcode = 0x4f then some [0x81]
      else if 0x51 ≤ opcode ∧ opcode ≤ 0x60 then some [opcode - 0x50]
      else none
    | none => none

def reducedDataMaxScriptElementSize : ℕ := 256

def reducedDataScriptPushesFit (script : Script) : Bool := script.instructions.all fun instruction => match instruction with
  | some (.pushBytes bytes) => bytes.length ≤ reducedDataMaxScriptElementSize
  | _ => true

def isOpSuccess (opcode : UInt8) : Bool :=
  opcode == 80 || opcode == 98 || (126 ≤ opcode && opcode ≤ 129) || (131 ≤ opcode && opcode ≤ 134) ||
    opcode == 137 || opcode == 138 || opcode == 141 || opcode == 142 || (149 ≤ opcode && opcode ≤ 153) ||
    (187 ≤ opcode && opcode ≤ 254)

def reducedDataTapscriptHasOpSuccess (script : Script) : Bool := script.instructions.any fun instruction =>
  match instruction with
  | some (.op opcode) => isOpSuccess opcode
  | _ => false

def tapscriptHasConditional (script : Script) : Bool := script.instructions.any fun instruction => match instruction with
  | some (.op opcode) => opcode == 0x63 || opcode == 0x64
  | _ => false

def itemsFit (items : List (List UInt8)) : Bool := items.all fun item => item.length ≤ reducedDataMaxScriptElementSize

/-- Whether a taproot witness obeys the limits: control block size, stack items, script pushes, no conditional or
always-successful opcode in a tapscript and no annex. -/
def taprootWitnessFits (witness : List (List UInt8)) : Bool := match witness.reverse with
  | control :: script :: stack =>
    33 ≤ control.length && control.length ≤ 33 + 32 * 7 && (control.length - 33) % 32 == 0 && itemsFit stack.reverse &&
      reducedDataScriptPushesFit script &&
      !((control.headD 0) &&& 0xfe == 0xc0 &&
        (tapscriptHasConditional script || reducedDataTapscriptHasOpSuccess script)) &&
      (stack.head?.bind (·.head?)) != some 0x50
  | _ => itemsFit witness

/-- Whether one input spending a coin created under the deployment obeys its limits. -/
def reducedDataInputFits (input : TxIn) (previousOutput : TxOut) : Bool :=
  let items := pushOnlyStackItems input.scriptSig
  let isP2sh := Script.isP2sh previousOutput.scriptPubkey
  let scriptSigFits := match isP2sh, items with
    | true, some items => itemsFit items.dropLast && (items.getLast?.map reducedDataScriptPushesFit).getD true
    | _, _ => reducedDataScriptPushesFit input.scriptSig
  let witnessProgram := if Script.isWitnessProgram previousOutput.scriptPubkey then some previousOutput.scriptPubkey
    else if isP2sh then (items.bind (·.getLast?)).filter Script.isWitnessProgram
    else none
  let witnessFits := match witnessProgram with
    | none => true
    | some program =>
      -- An empty witness satisfies the pay-to-anchor program.
      if program == [0x51, 0x02, 0x4e, 0x73] && input.witness.isEmpty then true
      else if Script.isP2wsh program then
        itemsFit input.witness.dropLast && (input.witness.getLast?.map reducedDataScriptPushesFit).getD true
      else if Script.isP2tr program then taprootWitnessFits input.witness
      else Script.isP2wpkh program && itemsFit input.witness
  scriptSigFits && reducedDataScriptPushesFit previousOutput.scriptPubkey && witnessFits

variable [Library]

def validateReducedDataOutputSizes (tx : Transaction) : Except ValidationError Unit :=
  let tooLarge (script : Script) : Bool :=
    (if Script.isOpReturn script then 83 else 34) < script.length
  bailIf (tx.output.any fun output => tooLarge output.scriptPubkey) (.reducedDataOutputTooLarge tx.computeTxid)

def validateReducedDataInputSizes (tx : Transaction) (previousOutputs : List TxOut) (previousHeights : List ℕ)
    (activationHeight : ℕ) : Except ValidationError Unit :=
  let offending := ((tx.input.zip previousOutputs).zip previousHeights).findIdx? fun ((input, out), height) =>
    activationHeight ≤ height && !reducedDataInputFits input out
  match offending with
  | some index => .error (.script tx.computeTxid index "Push value size limit exceeded")
  | none => .ok ()

end BitcoindRs
