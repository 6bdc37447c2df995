import Mathlib
import Signet.Proofs.Key.Meets
import Signet.Proofs.Primality.Acceptance

/-! What a request and a seed lead to. The two searches decide how a request ends
(`KeyRequest.Outcome`), and a pair that is handed over is as requested and went through its trial
run, whoever watches. The key that two numbers make (`KeyRequest.MakesKey`) is refused exactly when
the number of its trial run does not come back. Main statements: `generate_value_eq_ok_iff`,
`generate_value_eq_malformed_iff`, `generate_meets` and `generate_outcome`. -/
namespace Signet

namespace KeyRequest

/-- The key that a request makes of two numbers, of which the larger comes first. -/
structure MakesKey (r : KeyRequest) (a b : Integer) (key : PrivateKey) : Prop where
  order : key.p = a ∧ key.q = b ∨ key.p = b ∧ key.q = a
  q_lt_p : key.q.toInt < key.p.toInt
  ofPrimes_eq : PrivateKey.ofPrimes r.header key.p key.q = .ok key

/-- Two different numbers are put in order, and what is made of them is tried out. -/
theorem fromPrimes_eq (r : KeyRequest) (seed : Bytes) {a b p q : Integer}
    (horder : p = a ∧ q = b ∨ p = b ∧ q = a) (hlt : q.toInt < p.toInt) :
    r.fromPrimes seed a b = (do
      let key ← Monitored.ofExcept (PrivateKey.ofPrimes r.header p q)
      key.selfTest seed
      return (key.toPublic, key)) := by
  have hne : p ≠ q := by
    rintro rfl
    exact lt_irrefl _ hlt
  rcases horder with ⟨rfl, rfl⟩ | ⟨rfl, rfl⟩
  · have hge : ¬ p < q := mt Integer.lt_iff.mp (by omega)
    rw [fromPrimes, if_neg hne, if_neg hge]
  · rw [fromPrimes, if_neg hne.symm, if_pos (Integer.lt_iff.mpr hlt)]

theorem exists_order {a b : Integer} (hne : a ≠ b) :
    ∃ p q, (p = a ∧ q = b ∨ p = b ∧ q = a) ∧ q.toInt < p.toInt := by
  have hneInt : a.toInt ≠ b.toInt := mt Integer.toInt_inj.mp hne
  rcases lt_or_gt_of_ne hneInt with hlt | hgt
  · exact ⟨b, a, .inr ⟨rfl, rfl⟩, hlt⟩
  · exact ⟨a, b, .inl ⟨rfl, rfl⟩, hgt⟩

theorem and_of_order {P : Integer → Prop} {a b p q : Integer}
    (horder : p = a ∧ q = b ∨ p = b ∧ q = a) (ha : P a) (hb : P b) : P p ∧ P q := by
  rcases horder with ⟨rfl, rfl⟩ | ⟨rfl, rfl⟩
  · exact ⟨ha, hb⟩
  · exact ⟨hb, ha⟩

namespace MakesKey

variable {r : KeyRequest} {a b : Integer} {key : PrivateKey} (h : r.MakesKey a b key)
include h

/-- With its key in hand a request only has the trial run left. -/
theorem fromPrimes_eq (seed : Bytes) :
    r.fromPrimes seed a b = key.selfTest seed >>= fun _ => pure (key.toPublic, key) := by
  rw [KeyRequest.fromPrimes_eq r seed h.order h.q_lt_p, h.ofPrimes_eq]
  rfl

theorem fromPrimes_value (seed : Bytes) :
    (r.fromPrimes seed a b).value =
      (key.selfTest seed).value >>= fun _ => .ok (key.toPublic, key) := by
  rw [h.fromPrimes_eq, Monitored.value_bind]
  rfl

theorem meets (ha : Primality.Found (r.bits / 2) a) (hb : Primality.Found (r.bits / 2) b) :
    r.Meets key.toPublic key := by
  obtain ⟨hp, hq⟩ := and_of_order h.order ha hb
  exact (meets_of_ofPrimes hp hq h.q_lt_p h.ofPrimes_eq).1

theorem triedOut_of_primes (ha : Primality.Found (r.bits / 2) a)
    (hb : Primality.Found (r.bits / 2) b) (hp : a.toInt.toNat.Prime) (hq : b.toInt.toNat.Prime)
    {seed : Bytes} (hseed : r.seedLength ≤ seed.length) : key.TriedOut seed := by
  obtain ⟨hkp, hkq⟩ := and_of_order (P := fun x => x.toInt.toNat.Prime) h.order hp hq
  exact (h.meets ha hb).triedOut_of_primes hkp hkq hseed

end MakesKey

theorem generate_value_of_short (r : KeyRequest) {seed : Bytes} (h : seed.length < r.seedLength) :
    (r.generate seed).value = .error .invalidParameter := by
  rw [generate, if_pos h]
  rfl

theorem generate_value (r : KeyRequest) {seed : Bytes} (h : r.seedLength ≤ seed.length) :
    (r.generate seed).value = (do
      let a ← (Primality.search (r.bits / 2) (seed.take (r.bits / 16))).value
      let b ← (Primality.search (r.bits / 2) (seed.drop (r.bits / 16))).value
      (r.fromPrimes seed a b).value) := by
  rw [generate, if_neg (by omega), Monitored.value_bind]
  congr 1
  funext a
  rw [Monitored.value_bind]

section FromPrimes

variable {r : KeyRequest} {seed : Bytes} {a b : Integer}

theorem fromPrimes_self (r : KeyRequest) (seed : Bytes) (a : Integer) :
    r.fromPrimes seed a a = .ofExcept (.error .equalPrimes) := by
  rw [fromPrimes, if_pos rfl]

variable (ha : Primality.Found (r.bits / 2) a) (hb : Primality.Found (r.bits / 2) b)
include ha hb

theorem fromPrimes_of_not_coprime (hne : a ≠ b) (hgcd : Int.gcd a.toInt b.toInt ≠ 1) :
    r.fromPrimes seed a b = .ofExcept (.error .notInvertible) := by
  obtain ⟨p, q, horder, hlt⟩ := exists_order hne
  have herror : PrivateKey.ofPrimes r.header p q = .error .notInvertible := by
    rcases horder with ⟨rfl, rfl⟩ | ⟨rfl, rfl⟩
    · rw [Int.gcd_comm] at hgcd
      exact ofPrimes_eq_error ha hb hlt hgcd
    · exact ofPrimes_eq_error hb ha hlt hgcd
  rw [r.fromPrimes_eq seed horder hlt, herror]
  rfl

/-- Without a common factor there is a key, and only its trial run is left. -/
theorem exists_makesKey (hne : a ≠ b) (hgcd : Int.gcd a.toInt b.toInt = 1) :
    ∃ key, r.MakesKey a b key := by
  obtain ⟨p, q, horder, hlt⟩ := exists_order hne
  have hcoprime : Int.gcd q.toInt p.toInt = 1 := by
    rcases horder with ⟨rfl, rfl⟩ | ⟨rfl, rfl⟩
    · rwa [Int.gcd_comm]
    · exact hgcd
  obtain ⟨hp, hq⟩ := and_of_order horder ha hb
  obtain ⟨key, hkey⟩ := ofPrimes_eq_ok hp hq hlt hcoprime
  obtain ⟨-, rfl, rfl⟩ := meets_of_ofPrimes hp hq hlt hkey
  exact ⟨key, horder, hlt, hkey⟩

/-- Two numbers make a key, or they are refused before there is anything to try out. -/
theorem exists_makesKey_or_refused (seed : Bytes) :
    (∃ key, r.MakesKey a b key) ∨
      ∃ e, e ≠ .malformed ∧ r.fromPrimes seed a b = .ofExcept (.error e) := by
  by_cases hne : a = b
  · subst hne
    exact .inr ⟨_, by decide, r.fromPrimes_self seed a⟩
  by_cases hgcd : Int.gcd a.toInt b.toInt = 1
  · exact .inl (exists_makesKey ha hb hne hgcd)
  · exact .inr ⟨_, by decide, fromPrimes_of_not_coprime ha hb hne hgcd⟩

/-- Two numbers give a pair exactly when they make a key that passes its trial run. -/
theorem fromPrimes_value_eq_ok_iff {pub : PublicKey} {priv : PrivateKey} :
    (r.fromPrimes seed a b).value = .ok (pub, priv) ↔
      r.MakesKey a b priv ∧ priv.TriedOut seed ∧ pub = priv.toPublic := by
  constructor
  · intro hpair
    rcases exists_makesKey_or_refused ha hb seed with ⟨key, hkey⟩ | ⟨e, -, hrefused⟩
    · rw [hkey.fromPrimes_value, bind_eq_ok_iff] at hpair
      obtain ⟨_, htest, hpair⟩ := hpair
      obtain ⟨rfl, rfl⟩ := Prod.mk.inj (Except.ok.inj hpair)
      exact ⟨hkey, PrivateKey.selfTest_value_eq_ok_iff.mp htest, rfl⟩
    · rw [hrefused] at hpair
      cases hpair
  · rintro ⟨hkey, htried, rfl⟩
    rw [hkey.fromPrimes_value, PrivateKey.selfTest_value_eq_ok_iff.mpr htried, ok_bind]

/-- Two numbers are refused by the trial run exactly when the key that they make does not lead back
to its number. -/
theorem fromPrimes_value_eq_malformed_iff (hseed : r.seedLength ≤ seed.length) :
    (r.fromPrimes seed a b).value = .error .malformed ↔
      ∃ key, r.MakesKey a b key ∧ ¬ key.TriedOut seed := by
  -- for a key that is there the trial run alone decides, and it can only fail in this way
  have htrial {key : PrivateKey} (hkey : r.MakesKey a b key) :
      (r.fromPrimes seed a b).value = .error .malformed ↔ ¬ key.TriedOut seed := by
    rw [hkey.fromPrimes_value, bind_eq_error_iff,
      (hkey.meets ha hb).selfTest_value_eq_malformed_iff hseed]
    exact or_iff_left fun ⟨_, _, h⟩ => by cases h
  constructor
  · intro hmalformed
    rcases exists_makesKey_or_refused ha hb seed with ⟨key, hkey⟩ | ⟨e, he, hrefused⟩
    · exact ⟨key, hkey, (htrial hkey).mp hmalformed⟩
    · rw [hrefused] at hmalformed
      exact absurd (Except.error.inj hmalformed) he
  · rintro ⟨key, hkey, hback⟩
    exact (htrial hkey).mpr hback

end FromPrimes

/-- How the searches for the two primes end decides how a request ends. -/
structure Outcome (r : KeyRequest) (seed : Bytes) (first second : Except Error Integer)
    (outcome : Except Error (PublicKey × PrivateKey)) : Prop where
  error_mem : ∀ e, outcome = .error e →
    e ∈ [Error.searchExhausted, .equalPrimes, .notInvertible, .malformed]
  exhausted_iff : outcome = .error .searchExhausted ↔
    first = .error .searchExhausted ∨ second = .error .searchExhausted
  equal_iff : outcome = .error .equalPrimes ↔ ∃ a, first = .ok a ∧ second = .ok a
  notInvertible_iff : outcome = .error .notInvertible ↔
    ∃ a b, first = .ok a ∧ second = .ok b ∧ a ≠ b ∧ Int.gcd a.toInt b.toInt ≠ 1
  exponent_invertible : ∀ a b, first = .ok a → second = .ok b →
    ∃ d, (Integer.ofUInt64 (UInt64.ofNat Primality.publicExponent)).modInverse
      ((a - 1) * (b - 1)) = .ok d
  malformed : outcome = .error .malformed → ∃ a b, first = .ok a ∧ second = .ok b ∧
    (1 < a.toInt ∧ ¬ a.toInt.toNat.Prime ∨ 1 < b.toInt ∧ ¬ b.toInt.toNat.Prime)
  of_primes : ∀ a b, first = .ok a → second = .ok b → a ≠ b → a.toInt.toNat.Prime →
    b.toInt.toNat.Prime →
      ∃ priv : PrivateKey, outcome = .ok (priv.toPublic, priv) ∧
        (priv.p = a ∧ priv.q = b ∨ priv.p = b ∧ priv.q = a) ∧ priv.TriedOut seed

namespace Outcome

variable {r : KeyRequest} {seed : Bytes} {a b : Integer}

theorem of_exhausted {first second : Except Error Integer}
    (h : first = .error .searchExhausted ∨ second = .error .searchExhausted) :
    r.Outcome seed first second (.error .searchExhausted) := by
  have hnot (a b : Integer) (ha : first = .ok a) (hb : second = .ok b) : False := by
    rcases h with rfl | rfl
    · cases ha
    · cases hb
  constructor
  case error_mem => simp
  case exhausted_iff => exact ⟨fun _ => h, fun _ => rfl⟩
  case equal_iff => exact ⟨nofun, fun ⟨a, ha, hb⟩ => (hnot a a ha hb).elim⟩
  case notInvertible_iff => exact ⟨nofun, fun ⟨a, b, ha, hb, _⟩ => (hnot a b ha hb).elim⟩
  case exponent_invertible => exact fun a b ha hb => (hnot a b ha hb).elim
  case malformed => exact nofun
  case of_primes => exact fun a b ha hb => (hnot a b ha hb).elim

section Found

variable (ha : Primality.Found (r.bits / 2) a) (hb : Primality.Found (r.bits / 2) b)
include ha

theorem of_equal : r.Outcome seed (.ok a) (.ok a) (.error .equalPrimes) := by
  have hexponent := exists_modInverse_publicExponent ha ha r.half_valid.1
  constructor
  all_goals simp [hexponent]

include hb

theorem of_common_factor (hne : a ≠ b) (hgcd : Int.gcd a.toInt b.toInt ≠ 1) :
    r.Outcome seed (.ok a) (.ok b) (.error .notInvertible) := by
  have hexponent := exists_modInverse_publicExponent ha hb r.half_valid.1
  constructor
  case notInvertible_iff => exact ⟨fun _ => ⟨a, b, rfl, rfl, hne, hgcd⟩, fun _ => rfl⟩
  case of_primes =>
    -- two different primes have no common factor
    rintro _ _ ⟨⟩ ⟨⟩ - hp hq
    have hcoprime := isCoprime_of_primes hp hq (mt Integer.toInt_inj.mp hne)
    exact absurd (Int.isCoprime_iff_gcd_eq_one.mp hcoprime) hgcd
  all_goals simp [hne.symm, hexponent]

theorem of_passed {key : PrivateKey} (hne : a ≠ b) (hgcd : Int.gcd a.toInt b.toInt = 1)
    (hkey : r.MakesKey a b key) (htried : key.TriedOut seed) :
    r.Outcome seed (.ok a) (.ok b) (.ok (key.toPublic, key)) := by
  have hexponent := exists_modInverse_publicExponent ha hb r.half_valid.1
  constructor
  case of_primes =>
    rintro _ _ ⟨⟩ ⟨⟩ - - -
    exact ⟨key, rfl, hkey.order, htried⟩
  all_goals simp [hne.symm, hgcd, hexponent]

theorem of_failed (hne : a ≠ b) (hgcd : Int.gcd a.toInt b.toInt = 1)
    (hcomposite : ¬ (a.toInt.toNat.Prime ∧ b.toInt.toNat.Prime)) :
    r.Outcome seed (.ok a) (.ok b) (.error .malformed) := by
  have hexponent := exists_modInverse_publicExponent ha hb r.half_valid.1
  obtain ⟨hal, hbl⟩ := two_pow_255_le ha hb r.half_valid.1
  constructor
  case malformed =>
    intro _
    refine ⟨a, b, rfl, rfl, ?_⟩
    by_cases hp : a.toInt.toNat.Prime
    · exact Or.inr ⟨by omega, fun hq => hcomposite ⟨hp, hq⟩⟩
    · exact Or.inl ⟨by omega, hp⟩
  case of_primes =>
    rintro _ _ ⟨⟩ ⟨⟩ - hp hq
    exact absurd ⟨hp, hq⟩ hcomposite
  all_goals simp [hne.symm, hgcd, hexponent]

theorem of_found (hseed : r.seedLength ≤ seed.length) :
    r.Outcome seed (.ok a) (.ok b) (r.fromPrimes seed a b).value := by
  by_cases hne : a = b
  · subst hne
    rw [fromPrimes_self]
    exact of_equal ha
  by_cases hgcd : Int.gcd a.toInt b.toInt = 1
  · obtain ⟨key, hkey⟩ := exists_makesKey ha hb hne hgcd
    by_cases htried : key.TriedOut seed
    · rw [(fromPrimes_value_eq_ok_iff ha hb).mpr ⟨hkey, htried, rfl⟩]
      exact of_passed ha hb hne hgcd hkey htried
    · rw [(fromPrimes_value_eq_malformed_iff ha hb hseed).mpr ⟨key, hkey, htried⟩]
      -- two primes would have passed the trial run
      exact of_failed ha hb hne hgcd fun ⟨hp, hq⟩ =>
        htried (hkey.triedOut_of_primes ha hb hp hq hseed)
  · rw [fromPrimes_of_not_coprime ha hb hne hgcd]
    exact of_common_factor ha hb hne hgcd

end Found

end Outcome

section Halves

variable (r : KeyRequest) {half : Bytes} (hhalf : r.bits / 16 ≤ half.length)
include hhalf

theorem found_of_search {a : Integer}
    (h : (Primality.search (r.bits / 2) half).value = .ok a) : Primality.Found (r.bits / 2) a := by
  obtain ⟨hmin, hmul, hmax, hsize⟩ := r.half_valid
  rw [← hsize] at hhalf
  exact Primality.found_of_search hmin hmul hmax hhalf h

theorem search_cases :
    (∃ a, (Primality.search (r.bits / 2) half).value = .ok a ∧ Primality.Found (r.bits / 2) a) ∨
      (Primality.search (r.bits / 2) half).value = .error .searchExhausted := by
  cases hvalue : (Primality.search (r.bits / 2) half).value with
  | ok a => exact Or.inl ⟨a, rfl, r.found_of_search hhalf hvalue⟩
  | error e =>
    obtain ⟨hmin, hmul, hmax, hsize⟩ := r.half_valid
    rw [← hsize] at hhalf
    rw [Primality.search_value_eq_error hmin hmul hmax hhalf hvalue]
    exact Or.inr rfl

end Halves

/-- Each half of a seed is long enough for its search. -/
theorem halves_long {r : KeyRequest} {seed : Bytes} (hseed : r.seedLength ≤ seed.length) :
    r.bits / 16 ≤ (seed.take (r.bits / 16)).length ∧
      r.bits / 16 ≤ (seed.drop (r.bits / 16)).length := by
  rw [seedLength] at hseed
  rw [List.length_take, List.length_drop]
  omega

section Value

variable {r : KeyRequest} {seed : Bytes} (hseed : r.seedLength ≤ seed.length)
include hseed

theorem generate_value_cases :
    (∃ a b, Primality.Found (r.bits / 2) a ∧ Primality.Found (r.bits / 2) b ∧
      (Primality.search (r.bits / 2) (seed.take (r.bits / 16))).value = .ok a ∧
      (Primality.search (r.bits / 2) (seed.drop (r.bits / 16))).value = .ok b ∧
      (r.generate seed).value = (r.fromPrimes seed a b).value) ∨
    (((Primality.search (r.bits / 2) (seed.take (r.bits / 16))).value = .error .searchExhausted ∨
      (Primality.search (r.bits / 2) (seed.drop (r.bits / 16))).value = .error .searchExhausted) ∧
      (r.generate seed).value = .error .searchExhausted) := by
  obtain ⟨htake, hdrop⟩ := halves_long hseed
  rw [generate_value r hseed]
  rcases r.search_cases htake with ⟨a, ha, hfa⟩ | ha
  · rcases r.search_cases hdrop with ⟨b, hb, hfb⟩ | hb
    · rw [ha, hb]
      exact Or.inl ⟨a, b, hfa, hfb, rfl, rfl, rfl⟩
    · rw [ha, hb]
      exact Or.inr ⟨Or.inr rfl, rfl⟩
  · rw [ha]
    exact Or.inr ⟨Or.inl rfl, rfl⟩

theorem generate_value_outcome :
    r.Outcome seed (Primality.search (r.bits / 2) (seed.take (r.bits / 16))).value
      (Primality.search (r.bits / 2) (seed.drop (r.bits / 16))).value (r.generate seed).value := by
  rcases generate_value_cases hseed with ⟨a, b, hfa, hfb, ha, hb, hvalue⟩ | ⟨hsearch, hvalue⟩
  · rw [ha, hb, hvalue]
    exact Outcome.of_found hfa hfb hseed
  · rw [hvalue]
    exact Outcome.of_exhausted hsearch

/-- Every end but that of a search that runs dry is an end of the numbers that were found. -/
theorem generate_value_eq_iff {result : Except Error (PublicKey × PrivateKey)}
    (hresult : result ≠ .error .searchExhausted) :
    (r.generate seed).value = result ↔
      ∃ a b, Primality.Found (r.bits / 2) a ∧ Primality.Found (r.bits / 2) b ∧
        (Primality.search (r.bits / 2) (seed.take (r.bits / 16))).value = .ok a ∧
        (Primality.search (r.bits / 2) (seed.drop (r.bits / 16))).value = .ok b ∧
        (r.fromPrimes seed a b).value = result := by
  rcases generate_value_cases hseed with ⟨a, b, ha, hb, hfirst, hsecond, hvalue⟩ | ⟨hsearch, hvalue⟩
  · rw [hvalue, hfirst, hsecond]
    constructor
    · exact fun h => ⟨a, b, ha, hb, rfl, rfl, h⟩
    · rintro ⟨_, _, -, -, ⟨⟩, ⟨⟩, h⟩
      exact h
  · rw [hvalue]
    refine iff_of_false hresult.symm ?_
    rintro ⟨a, b, -, -, hfirst, hsecond, -⟩
    rw [hfirst, hsecond] at hsearch
    rcases hsearch with h | h
    · cases h
    · cases h

/-- A request gives a pair exactly when the two numbers that it finds make a key that passes its
trial run. -/
theorem generate_value_eq_ok_iff {pub : PublicKey} {priv : PrivateKey} :
    (r.generate seed).value = .ok (pub, priv) ↔
      ∃ a b, Primality.Found (r.bits / 2) a ∧ Primality.Found (r.bits / 2) b ∧
        (Primality.search (r.bits / 2) (seed.take (r.bits / 16))).value = .ok a ∧
        (Primality.search (r.bits / 2) (seed.drop (r.bits / 16))).value = .ok b ∧
        r.MakesKey a b priv ∧ priv.TriedOut seed ∧ pub = priv.toPublic := by
  refine (generate_value_eq_iff hseed (by nofun)).trans ?_
  refine exists_congr fun a => exists_congr fun b => and_congr_right fun ha =>
    and_congr_right fun hb => ?_
  rw [fromPrimes_value_eq_ok_iff ha hb]

/-- A request ends with malformed data exactly when the two numbers that it finds make a key whose
trial run does not lead back by both ways. -/
theorem generate_value_eq_malformed_iff :
    (r.generate seed).value = .error .malformed ↔
      ∃ a b, Primality.Found (r.bits / 2) a ∧ Primality.Found (r.bits / 2) b ∧
        (Primality.search (r.bits / 2) (seed.take (r.bits / 16))).value = .ok a ∧
        (Primality.search (r.bits / 2) (seed.drop (r.bits / 16))).value = .ok b ∧
        ∃ key, r.MakesKey a b key ∧ ¬ key.TriedOut seed := by
  refine (generate_value_eq_iff hseed (by nofun)).trans ?_
  refine exists_congr fun a => exists_congr fun b => and_congr_right fun ha =>
    and_congr_right fun hb => ?_
  rw [fromPrimes_value_eq_malformed_iff ha hb hseed]

end Value

theorem seed_long_of_value {r : KeyRequest} {seed : Bytes} {pair : PublicKey × PrivateKey}
    (h : (r.generate seed).value = .ok pair) : r.seedLength ≤ seed.length := by
  by_contra hshort
  rw [generate_value_of_short r (not_le.mp hshort)] at h
  cases h

theorem meets_of_value {r : KeyRequest} {seed : Bytes} {pub : PublicKey} {priv : PrivateKey}
    (h : (r.generate seed).value = .ok (pub, priv)) : r.Meets pub priv := by
  obtain ⟨a, b, ha, hb, -, -, hkey, -, rfl⟩ :=
    (generate_value_eq_ok_iff (seed_long_of_value h)).mp h
  exact hkey.meets ha hb

/-- A pair that is handed over went through its trial run, whoever watched. -/
theorem triedOut_of_run {σ : Type} {observer : Observer σ} {r : KeyRequest} {seed : Bytes} {s t : σ}
    {pub : PublicKey} {priv : PrivateKey}
    (h : (r.generate seed).run observer s = (.ok (pub, priv), t)) : priv.TriedOut seed := by
  have hvalue := Monitored.value_of_run_eq_ok h
  obtain ⟨_, _, -, -, -, -, -, htried, -⟩ :=
    (generate_value_eq_ok_iff (seed_long_of_value hvalue)).mp hvalue
  exact htried

/-- The header of the textbook key asks for the smallest size there is. -/
def sample : KeyRequest where
  header := PrivateKey.textbookHeader .current
  isCurrent := rfl
  minKeyBits_le := by decide
  isPowerOfTwo := by decide +kernel
  create_le_expire := by decide

/-- The bytes of the primes `467 * 2 ^ 247 + 1` and `757 * 2 ^ 246 + 1`. -/
def sampleSeed : Bytes :=
  (0xE9 :: 0x80 :: Bytes.zeros 29 ++ [1]) ++ (0xBD :: 0x40 :: Bytes.zeros 29 ++ [1])

theorem prime_of_mul_two_pow {k m : ℕ} (hk : k.Prime) (a : ZMod (k * 2 ^ m + 1))
    (h : a ^ (k * 2 ^ m) = 1) (h2 : a ^ (k * 2 ^ m / 2) ≠ 1) (hodd : a ^ (k * 2 ^ m / k) ≠ 1) :
    (k * 2 ^ m + 1).Prime := by
  refine lucas_primality _ a h ?_
  intro q hq hdvd
  rw [Nat.add_sub_cancel] at hdvd ⊢
  rcases hq.dvd_mul.mp hdvd with hqk | hq2
  · rwa [(Nat.prime_dvd_prime_iff_eq hq hk).mp hqk]
  · rwa [(Nat.prime_dvd_prime_iff_eq hq Nat.prime_two).mp (hq.dvd_of_dvd_pow hq2)]

theorem prime_467 : (467 * 2 ^ 247 + 1).Prime := by
  apply prime_of_mul_two_pow (by norm_num) 3
  · norm_num only
    reduce_mod_char
  · norm_num only
    reduce_mod_char
    decide +kernel
  · norm_num only
    reduce_mod_char
    decide +kernel

theorem prime_757 : (757 * 2 ^ 246 + 1).Prime := by
  apply prime_of_mul_two_pow (by norm_num) 3
  · norm_num only
    reduce_mod_char
  · norm_num only
    reduce_mod_char
    decide +kernel
  · norm_num only
    reduce_mod_char
    decide +kernel

theorem sample_first :
    (Primality.search 256 (sampleSeed.take 32)).value = .ok (.ofBytes (sampleSeed.take 32)) ∧
      (Integer.ofBytes (sampleSeed.take 32)).toInt.toNat.Prime := by
  have hvalue : (Integer.ofBytes (sampleSeed.take 32)).toInt.toNat = 467 * 2 ^ 247 + 1 := by
    decide +kernel
  have hp : (Integer.ofBytes (sampleSeed.take 32)).toInt.toNat.Prime := by
    rw [hvalue]
    exact prime_467
  refine ⟨Primality.search_value_of_prime hp ?_ ?_ ?_ ?_, hp⟩
  all_goals decide +kernel

theorem sample_second :
    (Primality.search 256 (sampleSeed.drop 32)).value = .ok (.ofBytes (sampleSeed.drop 32)) ∧
      (Integer.ofBytes (sampleSeed.drop 32)).toInt.toNat.Prime := by
  have hvalue : (Integer.ofBytes (sampleSeed.drop 32)).toInt.toNat = 757 * 2 ^ 246 + 1 := by
    decide +kernel
  have hp : (Integer.ofBytes (sampleSeed.drop 32)).toInt.toNat.Prime := by
    rw [hvalue]
    exact prime_757
  refine ⟨Primality.search_value_of_prime hp ?_ ?_ ?_ ?_, hp⟩
  all_goals decide +kernel

theorem exists_sample_pair : ∃ priv : PrivateKey,
    (sample.generate sampleSeed).run (fun _ _ => (false, ())) () =
        (.ok (priv.toPublic, priv), ()) ∧
      priv.p.toInt.toNat.Prime ∧ priv.q.toInt.toNat.Prime := by
  have hlength : sample.seedLength ≤ sampleSeed.length := by decide +kernel
  have hdistinct : Integer.ofBytes (sampleSeed.take 32) ≠ .ofBytes (sampleSeed.drop 32) := by
    decide +kernel
  obtain ⟨hfirst, hpa⟩ := sample_first
  obtain ⟨hsecond, hpb⟩ := sample_second
  obtain ⟨priv, hvalue, horder, -⟩ :=
    (generate_value_outcome hlength).of_primes _ _ hfirst hsecond hdistinct hpa hpb
  refine ⟨priv, ?_, ?_⟩
  · apply Prod.ext
    · rw [Monitored.run_fst_eq_value (fun _ _ => rfl), hvalue]
    · exact Subsingleton.elim _ _
  · exact and_of_order (P := fun x => x.toInt.toNat.Prime) horder hpa hpb

/-- Every pair that is handed over is as requested, whether or not its factors are prime. -/
theorem generate_meets {σ : Type} {observer : Observer σ} {r : KeyRequest} {seed : Bytes} {s t : σ}
    {pub : PublicKey} {priv : PrivateKey}
    (h : (r.generate seed).run observer s = (.ok (pub, priv), t)) : r.Meets pub priv :=
  meets_of_value (Monitored.value_of_run_eq_ok h)

theorem generate_meets_sample : ∃ pub priv,
    (sample.generate sampleSeed).run (fun _ _ => (false, ())) () = (.ok (pub, priv), ()) ∧
      sample.Meets pub priv := by
  obtain ⟨priv, hrun, -, -⟩ := exists_sample_pair
  exact ⟨priv.toPublic, priv, hrun, generate_meets hrun⟩

/-- Nothing but a short seed, a search that runs dry and numbers that are no two different primes
keeps a request from its key. -/
theorem generate_outcome {σ : Type} {observer : Observer σ}
    (hobserver : ∀ s event, (observer s event).1 = false) (r : KeyRequest) (seed : Bytes) (s : σ) :
    let first := (Primality.search (r.bits / 2) (seed.take (r.bits / 16))).run observer s
    let second := (Primality.search (r.bits / 2) (seed.drop (r.bits / 16))).run observer first.2
    (seed.length < r.seedLength →
      ((r.generate seed).run observer s).1 = .error .invalidParameter) ∧
    (r.seedLength ≤ seed.length →
      r.Outcome seed first.1 second.1 ((r.generate seed).run observer s).1) := by
  intro first second
  constructor
  · intro hshort
    rw [Monitored.run_fst_eq_value hobserver, generate_value_of_short r hshort]
  · intro hseed
    rw [Monitored.run_fst_eq_value hobserver, Monitored.run_fst_eq_value hobserver,
      Monitored.run_fst_eq_value hobserver]
    exact generate_value_outcome hseed

theorem generate_outcome_sample :
    (∃ priv : PrivateKey, ((sample.generate sampleSeed).run (fun _ _ => (false, ())) ()).1 =
        .ok (priv.toPublic, priv) ∧ priv.TriedOut sampleSeed) ∧
      ((sample.generate (sampleSeed.drop 1)).run (fun _ _ => (false, ())) ()).1 =
        .error .invalidParameter := by
  have hsilent : ∀ (s : Unit) (event : Event),
      ((fun _ _ => (false, ()) : Observer Unit) s event).1 = false := fun _ _ => rfl
  constructor
  · obtain ⟨-, hlong⟩ := generate_outcome hsilent sample sampleSeed ()
    obtain ⟨hfirst, hpa⟩ := sample_first
    obtain ⟨hsecond, hpb⟩ := sample_second
    obtain ⟨priv, hpriv, -, htried⟩ := (hlong (by decide +kernel)).of_primes _ _
      ((Monitored.run_fst_eq_value hsilent _ _).trans hfirst)
      ((Monitored.run_fst_eq_value hsilent _ _).trans hsecond) (by decide +kernel) hpa hpb
    exact ⟨priv, hpriv, htried⟩
  · obtain ⟨hshort, -⟩ := generate_outcome hsilent sample (sampleSeed.drop 1) ()
    exact hshort (by decide +kernel)

end KeyRequest

end Signet
