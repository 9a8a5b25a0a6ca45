import BitcoindRs.Consensus.Types

/-!
Difficulty targets: the compact form of a 256-bit target, the limits of the networks and the arithmetic of a retarget.
-/

namespace BitcoindRs

namespace Target

/-- `Target::from_compact`. The shift of a 256-bit number takes its distance modulo 256. -/
def fromCompact (bits : ℕ) : ℕ :=
  let exponent := bits >>> 24
  let mantissa := if exponent ≤ 3 then (bits &&& 0xFFFFFF) >>> (8 * (3 - exponent)) else bits &&& 0xFFFFFF
  let shift := if exponent ≤ 3 then 0 else 8 * (exponent - 3)
  if 0x7FFFFF < mantissa then 0 else (mantissa <<< (shift % 256)) % 2 ^ 256

def toCompactLossy (target : ℕ) : ℕ :=
  let size := (target.size + 7) / 8
  let compact := if size ≤ 3 then (target % 2 ^ 64 * 2 ^ (8 * (3 - size))) % 2 ^ 32 else (target >>> (8 * (size - 3))) % 2 ^ 32
  if compact &&& 0x800000 ≠ 0 then compact >>> 8 ||| (size + 1) <<< 24 else compact ||| size <<< 24

def maxAttainable : Network → ℕ
  | .bitcoin | .testnet | .testnet4 => 0xFFFF <<< 208
  | .signet => 0x0377ae <<< 216
  | .regtest => 0x7FFFFF <<< 232

def maxTransitionThreshold (network : Network) (target : ℕ) : ℕ := min ((target <<< 2) % 2 ^ 256) (maxAttainable network)

def minTransitionThreshold (target : ℕ) : ℕ := target >>> 2

end Target

def Network.allowMinDifficultyBlocks : Network → Bool
  | .bitcoin | .signet => false
  | .testnet | .testnet4 | .regtest => true

def difficultyAdjustmentInterval (network : Network) : ℕ := if network = .regtest then 144 else 2016

def permittedDifficultyTransition (network : Network) (height oldBits newBits : ℕ) : Bool :=
  if network.allowMinDifficultyBlocks then true
  else if height % difficultyAdjustmentInterval network ≠ 0 then oldBits = newBits
  else
    let oldTarget := Target.fromCompact oldBits
    let newTarget := Target.fromCompact newBits
    let maximum := Target.fromCompact (Target.toCompactLossy (Target.maxTransitionThreshold network oldTarget))
    let minimum := Target.fromCompact (Target.toCompactLossy (Target.minTransitionThreshold oldTarget))
    minimum ≤ newTarget ∧ newTarget ≤ maximum

def Network.noPowRetargeting : Network → Bool
  | .regtest => true
  | .bitcoin | .testnet | .testnet4 | .signet => false

def powTargetTimespan : ℕ := 14 * 24 * 60 * 60

def powTargetSpacing : ℕ := 10 * 60

namespace Target

/-- The base scaled by the time its period took, at most the limits of one transition. -/
def retarget (network : Network) (base timespan : ℕ) : ℕ :=
  let previous := fromCompact base
  let scaled := previous * timespan % 2 ^ 256 / powTargetTimespan
  let maximum := maxTransitionThreshold network previous
  if scaled ≥ maximum then toCompactLossy maximum else toCompactLossy scaled

def fromNextWorkRequired (network : Network) (last timespan : ℕ) : ℕ :=
  if network.noPowRetargeting then last
  else retarget network last (min (max timespan (powTargetTimespan >>> 2)) (powTargetTimespan <<< 2))

def limitBits (network : Network) : ℕ := toCompactLossy (maxAttainable network)

theorem fromCompact_limitBits (network : Network) : fromCompact (limitBits network) = maxAttainable network := by
  cases network <;> decide +kernel

end Target

end BitcoindRs
