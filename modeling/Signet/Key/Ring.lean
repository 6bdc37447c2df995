import Signet.Key.Packet
/-!
Key rings: keys of either kind stored back to back. The bytes that a key takes up are those of its
stored length, so that the next one begins right behind it. Main statements: `used_eq` and
`decodeAll_of_decode`.
-/
namespace Signet

namespace Key

/-- The stored form of either half. The digest of a passphrase and the sixteen bytes that the owner
chooses are for private keys. -/
def encode (pass : Digest) (iv : Block) : Key → Except Error Bytes
  | pub k => k.encode
  | priv k => k.encode pass iv

theorem encodedLength_pos (key : Key) : 0 < key.encodedLength := by
  have hheader (h : KeyHeader) : 0 < h.encodedLength := by
    rw [KeyHeader.encodedLength, Version.headerSize]
    omega
  cases key with
  | pub k => exact Nat.add_pos_left (hheader k.header) _
  | priv k =>
    exact Nat.add_pos_left (Nat.add_pos_left (Nat.add_pos_left (hheader k.header) _) _) _

/-- A key that was read takes up its stored length, and no more than there is. -/
theorem used_eq {bytes : Bytes} {pass : Option Digest} {key : Key} {used : Nat}
    (h : decode bytes pass = .ok (key, used)) :
    used = key.encodedLength ∧ used ≤ bytes.length := by
  rw [decode, bind_eq_ok_iff] at h
  obtain ⟨⟨kind, header⟩, -, h⟩ := h
  cases kind with
  | publicKey =>
    obtain ⟨⟨k, total⟩, hread, h⟩ := bind_eq_ok_iff.mp h
    obtain ⟨rfl, rfl⟩ := Prod.mk.inj (Except.ok.inj h)
    exact (PublicKey.of_decode hread).2.1
  | privateKey =>
    cases pass with
    | none => cases h
    | some pass =>
      obtain ⟨⟨k, total⟩, hread, h⟩ := bind_eq_ok_iff.mp h
      obtain ⟨rfl, rfl⟩ := Prod.mk.inj (Except.ok.inj h)
      exact (PrivateKey.of_decode hread).2.1
  | signature => cases h

theorem length_drop_lt {bytes : Bytes} {pass : Option Digest} {key : Key} {used : Nat}
    (h : decode bytes pass = .ok (key, used)) : (bytes.drop used).length < bytes.length := by
  obtain ⟨hused, hle⟩ := used_eq h
  have hpos := key.encodedLength_pos
  rw [List.length_drop]
  omega

/-- The keys of a ring in order, each read from where the one before it ends. Nothing else may stand
behind the last key. -/
def decodeAll (pass : Option Digest) (bytes : Bytes) : Except Error (List Key) :=
  if bytes = [] then .ok []
  else
    match h : decode bytes pass with
    | .error e => .error e
    | .ok (key, used) =>
      have _shorter := length_drop_lt h
      do
        let rest ← decodeAll pass (bytes.drop used)
        return key :: rest
termination_by bytes.length
decreasing_by assumption

theorem decodeAll_nil (pass : Option Digest) : decodeAll pass [] = .ok [] := by
  rw [decodeAll, if_pos rfl]

/-- A key at the front of a ring is followed by the ring behind it. -/
theorem decodeAll_of_decode {pass : Option Digest} {bytes : Bytes} {key : Key} {used : Nat}
    (h : decode bytes pass = .ok (key, used)) {keys : List Key}
    (hrest : decodeAll pass (bytes.drop used) = .ok keys) :
    decodeAll pass bytes = .ok (key :: keys) := by
  have hlength := length_drop_lt h
  have hbytes : bytes ≠ [] := List.length_pos_iff.mp (by omega)
  rw [decodeAll, if_neg hbytes]
  split
  · rename_i e herror
    rw [h] at herror
    cases herror
  · rename_i key' used' hread
    rw [h] at hread
    obtain ⟨rfl, rfl⟩ := Prod.mk.inj (Except.ok.inj hread)
    dsimp only
    rw [hrest, ok_bind]
    rfl

end Key
end Signet
