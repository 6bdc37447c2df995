import Mathlib
import Signet.Proofs.Key.Generation
import Signet.Proofs.Key.Operation
import Signet.Proofs.Signature.Layout
import Signet.Proofs.Signature.Payload
import Signet.Signature.Sealing

/-! What one half of a new pair seals the other half opens. A payload is a byte shorter than its
modulus, so that it is an operand even when the modulus is one digit short. Main statement:
`seal_round_trip`. -/
namespace Signet

/-- The half of a pair that an assertion is made with. -/
def Assertion.maker (a : Assertion) (pub : PublicKey) (priv : PrivateKey) : Key :=
  if a = .message then .pub pub else .priv priv

def Assertion.opener (a : Assertion) (pub : PublicKey) (priv : PrivateKey) : Key :=
  if a = .message then .priv priv else .pub pub

theorem KeyHeader.isValidAt_iff (h : KeyHeader) (t : Timestamp) :
    h.isValidAt t = true ↔ h.create ≤ t.secs ∧ t.secs ≤ h.expire := by
  rw [isValidAt, Bool.and_eq_true, decide_eq_true_eq, decide_eq_true_eq]

namespace Signature

section Steps

variable {key : Key} {hash : Digest} {time now : Timestamp} {a : Assertion} {sharing : Sharing}
  {m c : Integer}

theorem make_eq_ok (hsize : minKeyBits ≤ key.header.bits.toNat)
    (hkind : key.isPrivate = a.needsPrivateKey) (hnow : key.header.isValidAt now = true)
    (htime : key.header.isValidAt time = true)
    (hm : Payload.toMessage ⟨time, a.code, sharing.code, hash⟩ key.header.bits.toNat = .ok m)
    (hc : key.apply m = .ok c) :
    make hash time a sharing key now =
      .ok ⟨.current, key.header.bits, key.header.create, key.header.id, time.secs, a, sharing,
        c⟩ := by
  rw [make, hkind, hnow, htime, decide_eq_true hsize, beq_self_eq_true]
  dsimp only
  rw [hm, ok_bind, hc]
  rfl

theorem reveal_eq_ok {s : Signature} {p : Payload} (hsize : minKeyBits ≤ key.header.bits.toNat)
    (hkind : key.isPrivate = !s.assertion.needsPrivateKey) (hnames : s.names key.header = true)
    (hm : key.apply s.value = .ok m)
    (hp : Payload.ofMessage m key.header.bits.toNat = .ok p)
    (hvalid : key.header.isValidAt p.time = true) (ha : p.assertion = a.code)
    (hsharing : p.sharing = sharing.code) :
    s.reveal key = .ok ⟨p.hash, p.time, a, sharing⟩ := by
  have hpayload : s.payload key = .ok p := by
    rw [payload, hm, ok_bind, hp]
  have hother : (key.isPrivate != s.assertion.needsPrivateKey) = true := by
    rw [hkind]
    cases s.assertion.needsPrivateKey <;> rfl
  rw [reveal, hother, hnames, hpayload, decide_eq_true hsize]
  simp only [require_true, ok_bind, hvalid, ha, hsharing, Assertion.ofCode_code,
    Sharing.ofCode_code]
  rfl

theorem verify_eq_ok {s : Signature} {opened : Opened} (h : s.reveal key = .ok opened)
    (hhash : opened.hash = hash) : s.verify key hash = .ok opened := by
  rw [verify, h, ok_bind, hhash, beq_self_eq_true]
  rfl

end Steps

/-- The signature with the value `c` that names a key. -/
def naming (h : KeyHeader) (made : Int64) (a : Assertion) (sharing : Sharing) (c : Integer) :
    Signature :=
  ⟨.current, h.bits, h.create, h.id, made, a, sharing, c⟩

theorem names_naming (h : KeyHeader) (made : Int64) (a : Assertion) (sharing : Sharing)
    (c : Integer) : (naming h made a sharing c).names h = true := by
  rw [names, naming]
  simp only [beq_self_eq_true, Bool.and_self]

/-- A key opens every value that its operation leads to the number of a payload, whichever assertion
that is a payload of. -/
theorem open_of_inverse {opener : Key} {hash : Digest} {time : Timestamp} {outer inner : Assertion}
    {sharing : Sharing} {m c : Integer} (hsize : minKeyBits ≤ opener.header.bits.toNat)
    (hmod : opener.header.bits.toNat % 8 = 0) (hmax : opener.header.bits.toNat ≤ Integer.maxBits)
    (hn : opener.n.toInt < 2 ^ opener.header.bits.toNat)
    (hopener : opener.isPrivate = !outer.needsPrivateKey)
    (htime : opener.header.isValidAt time = true)
    (hp : Payload.ofMessage m opener.header.bits.toNat =
      .ok ⟨time.trunc, inner.code, sharing.code, hash⟩)
    (hback : opener.apply c = .ok m) :
    ∃ bytes, (naming opener.header time.secs outer sharing c).encode = .ok bytes ∧
      (∀ rest, decode (bytes ++ rest) =
        .ok (naming opener.header time.secs outer sharing c, bytes.length)) ∧
      (naming opener.header time.secs outer sharing c).reveal opener =
        .ok ⟨hash, time.trunc, inner, sharing⟩ := by
  obtain ⟨hc_nonneg, hc_lt⟩ := Key.operand_bounds hback
  -- what the opener takes is below the modulus, and so fits the stored width
  have hstorable : (naming opener.header time.secs outer sharing c).Storable :=
    ⟨hsize, hmod, hmax, hc_nonneg, hc_lt.trans hn⟩
  obtain ⟨bytes, hencode, -, hdecode⟩ := decode_encode_append _ hstorable
  have hreveal := reveal_eq_ok (s := naming opener.header time.secs outer sharing c)
    (p := ⟨time.trunc, inner.code, sharing.code, hash⟩) hsize hopener
    (names_naming ..) hback hp htime rfl rfl
  exact ⟨bytes, hencode, hdecode, hreveal⟩

theorem seal_of_inverse {maker opener : Key} {hash : Digest} {time now : Timestamp} {a : Assertion}
    {sharing : Sharing} {m c : Integer} (hheader : opener.header = maker.header)
    (hsize : minKeyBits ≤ maker.header.bits.toNat) (hmod : maker.header.bits.toNat % 8 = 0)
    (hmax : maker.header.bits.toNat ≤ Integer.maxBits)
    (hn : opener.n.toInt < 2 ^ maker.header.bits.toNat)
    (hmaker : maker.isPrivate = a.needsPrivateKey) (hopener : opener.isPrivate = !a.needsPrivateKey)
    (hnow : maker.header.isValidAt now = true) (htime : maker.header.isValidAt time = true)
    (hm : Payload.toMessage ⟨time, a.code, sharing.code, hash⟩ maker.header.bits.toNat = .ok m)
    (hp : Payload.ofMessage m maker.header.bits.toNat =
      .ok ⟨time.trunc, a.code, sharing.code, hash⟩)
    (hc : maker.apply m = .ok c) (hback : opener.apply c = .ok m) :
    ∃ sig bytes, make hash time a sharing maker now = .ok sig ∧ sig.encode = .ok bytes ∧
      (∀ rest, decode (bytes ++ rest) = .ok (sig, bytes.length)) ∧
      sig.reveal opener = .ok ⟨hash, time.trunc, a, sharing⟩ ∧
      sig.verify opener hash = .ok ⟨hash, time.trunc, a, sharing⟩ := by
  have hmake := make_eq_ok hsize hmaker hnow htime hm hc
  rw [← hheader] at hsize hmod hmax hn htime hp hmake
  obtain ⟨bytes, hencode, hdecode, hreveal⟩ :=
    open_of_inverse hsize hmod hmax hn hopener htime hp hback
  exact ⟨_, bytes, hmake, hencode, hdecode, hreveal, verify_eq_ok hreveal rfl⟩

/-- What is made with one half of a new pair is stored, read back and opened with the other half. -/
theorem seal_round_trip {σ : Type} {observer : Observer σ} {r : KeyRequest} {seed : Bytes} {s t : σ}
    {pub : PublicKey} {priv : PrivateKey} (hbits : r.bits ≤ Integer.maxBits)
    (h : (r.generate seed).run observer s = (.ok (pub, priv), t)) (hp : priv.p.toInt.toNat.Prime)
    (hq : priv.q.toInt.toNat.Prime) (hash : Digest) (a : Assertion) (sharing : Sharing)
    {time now : Timestamp} (hnow : r.header.create ≤ now.secs ∧ now.secs ≤ r.header.expire)
    (htime : r.header.create ≤ time.secs ∧ time.secs ≤ r.header.expire) :
    ∃ sig bytes, make hash time a sharing (a.maker pub priv) now = .ok sig ∧
      sig.encode = .ok bytes ∧ (∀ rest, decode (bytes ++ rest) = .ok (sig, bytes.length)) ∧
      sig.reveal (a.opener pub priv) = .ok ⟨hash, time.trunc, a, sharing⟩ ∧
      sig.verify (a.opener pub priv) hash = .ok ⟨hash, time.trunc, a, sharing⟩ := by
  have hmeets := KeyRequest.meets_of_value (Monitored.value_of_run_eq_ok h)
  have hmin : minKeyBits ≤ r.header.bits.toNat := r.minKeyBits_le
  have hmul : r.header.bits.toNat % 8 = 0 := by
    have := r.sixteen_dvd
    rw [KeyRequest.bits] at this
    omega
  obtain ⟨m, hm, hm_nonneg, hm_lt, hpayload⟩ :=
    Payload.toMessage_spec hmul (by rw [minKeyBits] at hmin; rw [Payload.fieldsSize]; omega)
      ⟨time, a.code, sharing.code, hash⟩ hbits
  obtain rfl := hmeets.public_eq
  rw [← KeyHeader.isValidAt_iff] at hnow htime
  rw [KeyRequest.bits] at hbits
  rw [← hmeets.header_eq] at hmin hmul hbits hm hpayload hnow htime
  -- the payload is a byte shorter than the size, and the modulus one digit at most
  have hlt : m.toInt < priv.n.toInt :=
    calc m.toInt < 2 ^ (r.bits - 8) := hm_lt
      _ ≤ 2 ^ (r.bits - 2) := pow_le_pow_right₀ one_le_two (by omega)
      _ ≤ priv.n.toInt := hmeets.two_pow_le_n
  have hn := hmeets.n_lt_two_pow
  have hlegacy : priv.header.version = .legacy → 0 ≤ priv.d.toInt := fun _ => hmeets.d_pos.le
  by_cases hmessage : a = .message
  · subst hmessage
    obtain ⟨c, hpublic, hprivate⟩ :=
      PrivateKey.apply_toPublic_apply hmeets.sound hp hq hlegacy hm_nonneg hlt
    rw [Assertion.maker, if_pos rfl, Assertion.opener, if_pos rfl]
    exact seal_of_inverse rfl hmin hmul hbits hn rfl rfl hnow htime hm hpayload hpublic hprivate
  · obtain ⟨c, hprivate, hpublic⟩ :=
      PrivateKey.toPublic_apply_apply hmeets.sound hp hq hlegacy hm_nonneg hlt
    have hneeds : a.needsPrivateKey = true := bne_iff_ne.mpr hmessage
    rw [Assertion.maker, if_neg hmessage, Assertion.opener, if_neg hmessage]
    exact seal_of_inverse rfl hmin hmul hbits hn hneeds.symm (by rw [hneeds]; rfl) hnow htime hm
      hpayload hprivate hpublic

/-- A seal of every kind with the sample pair, at both ends of its window. -/
theorem seal_round_trip_sample : ∃ pub priv,
    (KeyRequest.sample.generate KeyRequest.sampleSeed).run (fun _ _ => (false, ())) () =
        (.ok (pub, priv), ()) ∧
      ∀ a : Assertion, ∃ sig bytes,
        make .zero ⟨0, 7⟩ a .yes (a.maker pub priv) ⟨1, 0⟩ = .ok sig ∧ sig.encode = .ok bytes ∧
        (∀ rest, decode (bytes ++ rest) = .ok (sig, bytes.length)) ∧
        sig.reveal (a.opener pub priv) = .ok ⟨.zero, ⟨0, 0⟩, a, .yes⟩ ∧
        sig.verify (a.opener pub priv) .zero = .ok ⟨.zero, ⟨0, 0⟩, a, .yes⟩ := by
  obtain ⟨priv, hrun, hp, hq⟩ := KeyRequest.exists_sample_pair
  refine ⟨priv.toPublic, priv, hrun, ?_⟩
  intro a
  exact seal_round_trip (by decide +kernel) hrun hp hq .zero a .yes (by decide) (by decide)

end Signature
end Signet
