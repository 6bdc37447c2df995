import Mathlib
import Signet.Proofs.Signature.RoundTrip

/-! What a key can be brought to open. The kind of a key is compared with the assertion in the
header of a signature, which nothing vouches for, and what is handed out is the assertion inside.
Whoever can make a signature under one header can put any assertion inside. Main statements:
`exists_opened` and `opened_rule_iff`. -/
namespace Signet

theorem Assertion.code_inj {a b : Assertion} : a.code = b.code ↔ a = b := by
  cases a <;> cases b <;> decide

namespace KeyRequest.Meets

variable {r : KeyRequest} {pub : PublicKey} {priv : PrivateKey} (h : r.Meets pub priv)
include h

theorem opener_spec (a : Assertion) :
    (a.opener pub priv).isPrivate = (!a.needsPrivateKey) ∧
      (a.opener pub priv).header = r.header ∧ (a.opener pub priv).n = priv.n := by
  obtain rfl := h.public_eq
  cases a <;> exact ⟨rfl, h.header_eq, rfl⟩

/-- The two halves undo each other on the number of every payload, whichever comes first. -/
theorem exists_operand (hp : priv.p.toInt.toNat.Prime) (hq : priv.q.toInt.toNat.Prime)
    (hmax : r.bits ≤ Integer.maxBits) (a : Assertion) (payload : Payload) :
    ∃ m c, payload.toMessage r.bits = .ok m ∧ Payload.ofMessage m r.bits = .ok payload.restored ∧
      (a.maker pub priv).apply m = .ok c ∧ (a.opener pub priv).apply c = .ok m := by
  have hmin : 512 ≤ r.bits := r.minKeyBits_le
  have hunits := r.sixteen_dvd
  obtain ⟨m, hm, hm_nonneg, hm_lt, hback⟩ :=
    payload.toMessage_spec (show r.bits % 8 = 0 by omega) (by rw [Payload.fieldsSize]; omega) hmax
  -- the payload is a byte shorter than the size, and the modulus one digit at most
  have hlt : m.toInt < priv.n.toInt :=
    calc m.toInt < 2 ^ (r.bits - 8) := hm_lt
      _ ≤ 2 ^ (r.bits - 2) := pow_le_pow_right₀ one_le_two (by omega)
      _ ≤ priv.n.toInt := h.two_pow_le_n
  have hlegacy : priv.header.version = .legacy → 0 ≤ priv.d.toInt := fun _ => h.d_pos.le
  obtain rfl := h.public_eq
  by_cases hmessage : a = .message
  · obtain ⟨c, hpublic, hprivate⟩ :=
      PrivateKey.apply_toPublic_apply h.sound hp hq hlegacy hm_nonneg hlt
    rw [Assertion.maker, if_pos hmessage, Assertion.opener, if_pos hmessage]
    exact ⟨m, c, hm, hback, hpublic, hprivate⟩
  · obtain ⟨c, hprivate, hpublic⟩ :=
      PrivateKey.toPublic_apply_apply h.sound hp hq hlegacy hm_nonneg hlt
    rw [Assertion.maker, if_neg hmessage, Assertion.opener, if_neg hmessage]
    exact ⟨m, c, hm, hback, hprivate, hpublic⟩

end KeyRequest.Meets

namespace Signature

/-- Whoever holds the half that signatures under a header are made with brings the other half to
open any assertion under that header. -/
theorem exists_opened {r : KeyRequest} {pub : PublicKey} {priv : PrivateKey}
    (hmeets : r.Meets pub priv) (hp : priv.p.toInt.toNat.Prime) (hq : priv.q.toInt.toNat.Prime)
    (hmax : r.bits ≤ Integer.maxBits) (outer inner : Assertion) (hash : Digest)
    (sharing : Sharing) (time : Timestamp) (htime : r.header.isValidAt time = true) :
    ∃ m c bytes sig, Payload.toMessage ⟨time, inner.code, sharing.code, hash⟩ r.bits = .ok m ∧
      (outer.maker pub priv).apply m = .ok c ∧ sig.assertion = outer ∧ sig.value = c ∧
      (∀ rest, decode (bytes ++ rest) = .ok (sig, bytes.length)) ∧
      sig.reveal (outer.opener pub priv) = .ok ⟨hash, time.trunc, inner, sharing⟩ := by
  obtain ⟨m, c, hm, hfields, hc, hback⟩ :=
    hmeets.exists_operand hp hq hmax outer ⟨time, inner.code, sharing.code, hash⟩
  obtain ⟨hkind, hheader, hn⟩ := hmeets.opener_spec outer
  have hmin : minKeyBits ≤ r.header.bits.toNat := r.minKeyBits_le
  have hunits := r.sixteen_dvd
  have hbelow := hmeets.n_lt_two_pow
  rw [hmeets.header_eq, ← hn] at hbelow
  have hmod : r.header.bits.toNat % 8 = 0 := by
    change r.bits % 8 = 0
    omega
  change Payload.ofMessage m r.header.bits.toNat = _ at hfields
  rw [KeyRequest.bits] at hmax
  rw [← hheader] at hmin hmod hmax hbelow htime hfields
  obtain ⟨bytes, -, hdecode, hreveal⟩ :=
    open_of_inverse hmin hmod hmax hbelow hkind htime hfields hback
  exact ⟨m, c, bytes, _, hm, hc, rfl, rfl, hdecode, hreveal⟩

/-- What is handed out is what stands inside, once the header calls for the half at hand. -/
theorem of_reveal {s : Signature} {key : Key} {opened : Opened} (h : s.reveal key = .ok opened) :
    (key.isPrivate = true ↔ s.assertion = .message) ∧
      s.payload key =
        .ok ⟨opened.time, opened.assertion.code, opened.sharing.code, opened.hash⟩ := by
  obtain ⟨_, -, h⟩ := bind_eq_ok_iff.mp h
  obtain ⟨_, hkind, h⟩ := bind_eq_ok_iff.mp h
  obtain ⟨_, -, h⟩ := bind_eq_ok_iff.mp h
  obtain ⟨inside, hinside, h⟩ := bind_eq_ok_iff.mp h
  obtain ⟨_, -, h⟩ := bind_eq_ok_iff.mp h
  obtain ⟨a, ha, h⟩ := bind_eq_ok_iff.mp h
  obtain ⟨sharing, hsharing, h⟩ := bind_eq_ok_iff.mp h
  obtain rfl := Except.ok.inj h
  constructor
  -- the comparison at the start looks at the header alone
  · have hother := require_eq_ok_iff.mp hkind
    rw [bne_iff_ne, Assertion.needsPrivateKey] at hother
    by_cases hmessage : s.assertion = .message
    · rw [hmessage] at hother
      simpa [hmessage] using hother
    · rw [bne_iff_ne.mpr hmessage] at hother
      simpa [hmessage] using hother
  -- and the look-ups at the end at the payload alone
  · rw [hinside, Assertion.code_of_ofCode ha, Sharing.code_of_ofCode hsharing]

/-- What is opened obeys the rule that messages are for private keys and all else for public ones
exactly when the assertion inside agrees with the header on being a message. -/
theorem opened_rule_iff {s : Signature} {key : Key} {opened : Opened}
    (h : s.reveal key = .ok opened) :
    ∃ inside, s.payload key = .ok inside ∧ inside.assertion = opened.assertion.code ∧
      ((opened.assertion = .message ↔ key.isPrivate = true) ↔
        (inside.assertion = Assertion.message.code ↔ s.assertion = .message)) := by
  obtain ⟨hkind, hinside⟩ := of_reveal h
  refine ⟨_, hinside, rfl, ?_⟩
  rw [hkind, Assertion.code_inj]

/-- A plain signature that was made with the private key of the sample pair obeys the rule. -/
theorem opened_rule_sample : ∃ (priv : PrivateKey) (sig : Signature) (opened : Opened),
    sig.reveal (.pub priv.toPublic) = .ok opened ∧ opened.assertion = .sign ∧
      (opened.assertion = .message ↔ (Key.pub priv.toPublic).isPrivate = true) := by
  obtain ⟨priv, hrun, hp, hq⟩ := KeyRequest.exists_sample_pair
  have hmeets := KeyRequest.meets_of_value (Monitored.value_of_run_eq_ok hrun)
  obtain ⟨m, c, bytes, sig, -, -, houter, -, -, hreveal⟩ :=
    exists_opened hmeets hp hq (by decide +kernel) .sign .sign .zero .yes ⟨0, 0⟩
      (by decide +kernel)
  obtain ⟨inside, -, hassertion, hrule⟩ := opened_rule_iff hreveal
  refine ⟨priv, sig, _, hreveal, rfl, hrule.mpr ?_⟩
  rw [hassertion, houter]
  decide

/-- Whoever knows the public key of the sample pair brings its private key, which passes the check,
to open a plain signature. -/
theorem opened_rule_broken : ∃ (priv : PrivateKey) (bytes : Bytes) (sig : Signature),
    PrivateKey.ofParts priv.header priv.n priv.d priv.p priv.q priv.dp priv.dq priv.qInv =
        .ok priv ∧
      decode bytes = .ok (sig, bytes.length) ∧
      sig.reveal (.priv priv) = .ok ⟨.zero, ⟨0, 0⟩, .sign, .yes⟩ ∧
      ∃ m, priv.toPublic.apply m = .ok sig.value := by
  obtain ⟨priv, hrun, hp, hq⟩ := KeyRequest.exists_sample_pair
  have hmeets := KeyRequest.meets_of_value (Monitored.value_of_run_eq_ok hrun)
  have haccepted := PrivateKey.ofParts_of_isSound ((PrivateKey.isSound_iff priv).mpr hmeets.sound)
  obtain ⟨m, c, bytes, sig, -, hmade, -, rfl, hdecode, hreveal⟩ :=
    exists_opened hmeets hp hq (by decide +kernel) .message .sign .zero .yes ⟨0, 0⟩
      (by decide +kernel)
  have hstored := hdecode []
  rw [List.append_nil] at hstored
  exact ⟨priv, bytes, sig, haccepted, hstored, hreveal, m, hmade⟩

end Signature
end Signet
