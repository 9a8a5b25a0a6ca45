import BitcoindRs.Consensus.Types
import BitcoindRs.Data.Bytes

/-! Headers on the wire: eighty bytes of little-endian fields. -/

namespace BitcoindRs
open Codec

def signed32 (n : ℕ) : ℤ := if n < 2 ^ 31 then n else (n : ℤ) - 2 ^ 32

def Header.serialize (header : Header) : Bytes :=
  leBytes 4 (header.version % 2 ^ 32).toNat ++ leBytes 32 header.prevBlockhash ++ leBytes 32 header.merkleRoot ++
    leBytes 4 header.time ++ leBytes 4 header.bits ++ leBytes 4 header.nonce

def Header.read : Reader Header := fun input => do
  let (version, rest) ← readLe 4 input
  let (prevBlockhash, rest) ← readLe 32 rest
  let (merkleRoot, rest) ← readLe 32 rest
  let (time, rest) ← readLe 4 rest
  let (bits, rest) ← readLe 4 rest
  let (nonce, rest) ← readLe 4 rest
  some (⟨signed32 version, prevBlockhash, merkleRoot, time, bits, nonce⟩, rest)

structure Header.Fits (header : Header) : Prop where
  version : -2 ^ 31 ≤ header.version ∧ header.version < 2 ^ 31
  prevBlockhash : header.prevBlockhash < 2 ^ 256
  merkleRoot : header.merkleRoot < 2 ^ 256
  time : header.time < 2 ^ 32
  bits : header.bits < 2 ^ 32
  nonce : header.nonce < 2 ^ 32

@[simp] theorem Header.length_serialize (header : Header) : header.serialize.length = 80 := by
  simp [Header.serialize]

theorem Header.read_serialize {header : Header} (fits : header.Fits) (rest : Bytes) :
    Header.read (header.serialize ++ rest) = some (header, rest) := by
  have version : signed32 (header.version % 2 ^ 32).toNat = header.version := by
    have := fits.version
    unfold signed32
    split <;> omega
  have small : (header.version % 2 ^ 32).toNat < 256 ^ 4 := by omega
  have wide : ∀ {n : ℕ}, n < 2 ^ 256 → n < 256 ^ 32 := fun below => below.trans_eq (by norm_num)
  have narrow : ∀ {n : ℕ}, n < 2 ^ 32 → n < 256 ^ 4 := fun below => below.trans_eq (by norm_num)
  simp only [Header.read, Header.serialize, List.append_assoc, readLe_leBytes small, version,
    readLe_leBytes (wide fits.prevBlockhash), readLe_leBytes (wide fits.merkleRoot), readLe_leBytes (narrow fits.time),
    readLe_leBytes (narrow fits.bits), readLe_leBytes (narrow fits.nonce), Option.bind_eq_bind, Option.bind_some]

def Header.deserialize (bytes : Bytes) : Option Header :=
  match Header.read bytes with
  | some (header, []) => some header
  | _ => none

theorem Header.deserialize_serialize {header : Header} (fits : header.Fits) :
    Header.deserialize header.serialize = some header := by
  have read := Header.read_serialize fits []
  rw [List.append_nil] at read
  rw [Header.deserialize, read]

end BitcoindRs
