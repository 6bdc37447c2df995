import Mathlib
import Signet.Primality.Search
import Signet.Proofs.Integer.Octets
import Signet.Proofs.Primality.Rounds

/-! What the walk of the prime search keeps: the number tested last is the start and an even offset.
Main statements: `walk_value_eq_ok` and `walk_value_eq_error` for any verdict, and `found_of_search`
and `search_value_eq_error` for the search itself. -/
namespace Signet.Primality

/-- The sieve looks at offsets of one parity, and behind the last allowed one only where it
started. -/
theorem nextOffset_eq_some {sieve : List Residue} {count offset next : ℕ}
    (h : nextOffset sieve count offset = some next) :
    sievePasses sieve next = true ∧ offset ≤ next ∧ next % 2 = offset % 2 ∧
      (next ≤ maxStep ∨ next = offset) := by
  induction count generalizing offset with
  | zero => cases h
  | succ count ih =>
    rw [nextOffset] at h
    split at h
    · next hpass =>
      obtain rfl := Option.some.inj h
      exact ⟨hpass, le_rfl, rfl, Or.inr rfl⟩
    · split at h
      · cases h
      · next hstep =>
        obtain ⟨hpass, hle, hparity, hbound⟩ := ih h
        refine ⟨hpass, by omega, by omega, ?_⟩
        rcases hbound with hbound | rfl
        · exact Or.inl hbound
        · exact Or.inl (by omega)

/-- Where the walk from `start` may stand. -/
structure Walk.From (start : Integer) (w : Walk) : Prop where
  candidate_eq : w.candidate.toInt = start.toInt + w.base
  base_even : w.base % 2 = 0
  offset_even : w.offset % 2 = 0
  base_le : w.base ≤ w.offset
  offset_le : w.offset ≤ w.base + 2

theorem Walk.from_start (start : Integer) : Walk.From start ⟨start, 0, 0⟩ where
  candidate_eq := by rw [Nat.cast_zero, add_zero]
  base_even := rfl
  offset_even := rfl
  base_le := le_rfl
  offset_le := Nat.zero_le _

/-- The sum that moves a candidate from one offset to another. -/
theorem toInt_add_distance {p : Integer} {first : ℤ} {base offset : ℕ} (hp : p.toInt = first + base)
    (hle : base ≤ offset) (hlt : offset - base < 2 ^ 64) :
    (p + .ofUInt64 (UInt64.ofNat (offset - base))).toInt = first + offset := by
  rw [Integer.toInt_add, Integer.toInt_ofUInt64, Magnitude.toNat_ofNat_mod, Nat.mod_eq_of_lt hlt, hp]
  omega

/-- The next number that is tested, and where the walk stands after it. -/
theorem Walk.From.next {start : Integer} {w : Walk} (h : w.From start) {sieve : List Residue}
    {count offset : ℕ} (hoffset : nextOffset sieve count w.offset = some offset) :
    (w.candidate + .ofUInt64 (UInt64.ofNat (offset - w.base))).toInt = start.toInt + offset ∧
      offset % 2 = 0 := by
  obtain ⟨-, hle, hparity, hbound⟩ := nextOffset_eq_some hoffset
  have hbase := h.base_le
  have hmax := h.offset_le
  have heven := h.offset_even
  have hfits : offset - w.base < 2 ^ 64 := by
    have : maxStep + 2 < 2 ^ 64 := by decide
    omega
  exact ⟨toInt_add_distance h.candidate_eq (hbase.trans hle) hfits, by omega⟩

variable {verdict : Integer → Monitored Bool} {sieve : List Residue} {bits count : ℕ}

theorem walk_value_succ (w : Walk) :
    (walk verdict sieve bits (count + 1) w).value =
      match nextOffset sieve walkLength w.offset with
      | none => .error .searchExhausted
      | some offset =>
        let candidate := w.candidate + .ofUInt64 (UInt64.ofNat (offset - w.base))
        if candidate.bits != bits then .error .searchExhausted
        else (verdict candidate).value.bind fun accepted =>
          if accepted then .ok candidate
          else (walk verdict sieve bits count
            { candidate, base := offset, offset := offset + 2 }).value := by
  rw [walk, Monitored.value]
  cases nextOffset sieve walkLength w.offset with
  | none => rfl
  | some offset =>
    dsimp only
    split
    · rfl
    · rw [Monitored.value_bind]
      congr 1
      funext accepted
      cases accepted <;> rfl

theorem walk_value_of_accepted {w : Walk} {offset : ℕ} {candidate : Integer}
    (hoffset : nextOffset sieve walkLength w.offset = some offset)
    (hcandidate : w.candidate + .ofUInt64 (UInt64.ofNat (offset - w.base)) = candidate)
    (hbits : candidate.bits = bits) (hverdict : (verdict candidate).value = .ok true) :
    (walk verdict sieve bits (count + 1) w).value = .ok candidate := by
  rw [walk_value_succ, hoffset]
  dsimp only
  rw [hcandidate, hbits, bne_self_eq_false, if_neg Bool.false_ne_true, hverdict]
  rfl

/-- Whatever the walk ends with lies an even offset behind the start, has the right size, and passed
the sieve and the verdict. -/
theorem walk_value_eq_ok {start p : Integer} {w : Walk} (hw : w.From start)
    (h : (walk verdict sieve bits count w).value = .ok p) :
    p.bits = bits ∧ (verdict p).value = .ok true ∧
      ∃ offset, offset % 2 = 0 ∧ sievePasses sieve offset = true ∧
        p.toInt = start.toInt + offset := by
  induction count generalizing w with
  | zero => cases h
  | succ count ih =>
    rw [walk_value_succ] at h
    cases hoffset : nextOffset sieve walkLength w.offset with
    | none =>
      rw [hoffset] at h
      cases h
    | some offset =>
      obtain ⟨hvalue, heven⟩ := hw.next hoffset
      obtain ⟨hpass, -, -, -⟩ := nextOffset_eq_some hoffset
      rw [hoffset] at h
      dsimp only at h
      generalize w.candidate + .ofUInt64 (UInt64.ofNat (offset - w.base)) = candidate at h hvalue
      split at h
      · cases h
      · next hbits =>
        cases hverdict : (verdict candidate).value with
        | error e =>
          rw [hverdict] at h
          cases h
        | ok accepted =>
          rw [hverdict] at h
          cases accepted with
          | true =>
            obtain rfl : candidate = p := Except.ok.inj h
            exact ⟨by simpa using hbits, hverdict, offset, heven, hpass, hvalue⟩
          | false =>
            exact ih ⟨hvalue, heven, by change (offset + 2) % 2 = 0; omega, by simp, le_rfl⟩ h

/-- A walk whose verdicts never fail can only run out of numbers. -/
theorem walk_value_eq_error {w : Walk} {e : Error}
    (hverdict : ∀ candidate, ∃ accepted, (verdict candidate).value = .ok accepted)
    (h : (walk verdict sieve bits count w).value = .error e) : e = .searchExhausted := by
  induction count generalizing w with
  | zero => exact (Except.error.inj h).symm
  | succ count ih =>
    rw [walk_value_succ] at h
    split at h
    · exact (Except.error.inj h).symm
    · dsimp only at h
      split at h
      · exact (Except.error.inj h).symm
      · next offset _ _ =>
        obtain ⟨accepted, haccepted⟩ :=
          hverdict (w.candidate + .ofUInt64 (UInt64.ofNat (offset - w.base)))
        rw [haccepted] at h
        cases accepted with
        | true => cases h
        | false => exact ih h

theorem test_value_eq_ok (p : Integer) (requested : ℕ) :
    ∃ accepted, (test p requested).value = .ok accepted := by
  by_cases hfit : p.toInt % 2 = 1 ∧ 3 ≤ p.toInt
  · rw [test, testWith_of_fit _ _ hfit.1 hfit.2]
    exact (Candidate.of p).rounds_value_eq_ok _ _ _
  · rw [test, testWith_of_unfit _ _ hfit]
    exact ⟨false, rfl⟩

theorem searchStart_eq_ok {bits : ℕ} {seed : Bytes} (hmin : minPrimeBits ≤ bits)
    (hmul : bits % 8 = 0) (hmax : bits ≤ Integer.maxBits) (hlength : bits / 8 ≤ seed.length) :
    ∃ start, searchStart bits seed = .ok start ∧
      start.toInt =
        ((Bytes.ofBigEndian (seed.take (bits / 8)) ||| 2 ^ (bits - 1)) ||| 2 ^ 0 : ℕ) := by
  have hpos : 0 < bits := lt_of_lt_of_le (by decide) hmin
  have hplace (x : Integer) (n : ℕ) (hx : x.toInt = n) (place : ℕ) (hlt : place < Integer.maxBits) :
      ∃ y, x.setBit place true = .ok y ∧ y.toInt = (n ||| 2 ^ place : ℕ) := by
    have hsign : x.negative = false :=
      Bool.eq_false_iff.mpr (mt (Integer.negative_iff x).mp (by omega))
    have hsize : x.magnitude.toNat = n := by
      rw [Integer.toNat_magnitude, hx, Int.natAbs_natCast]
    refine ⟨_, by rw [Integer.setBit, if_neg (by omega), if_pos rfl], ?_⟩
    rw [Integer.toInt_ofMagnitude, hsign, if_neg Bool.false_ne_true, Magnitude.toNat_setBit, hsize]
  have hload : Integer.load (seed.take (bits / 8)) bits =
      .ok (Integer.ofBytes (seed.take (bits / 8))) := by
    rw [Integer.load_eq_ok hmul hmax (by rw [List.length_take]; omega), List.take_take, min_self]
  obtain ⟨top, htop, htop'⟩ := hplace _ _ (Integer.toInt_ofBytes _) (bits - 1) (by omega)
  obtain ⟨start, hstart, hstart'⟩ := hplace _ _ htop' 0 (by decide)
  refine ⟨start, ?_, hstart'⟩
  have hvalid : (bits < minPrimeBits || bits % 8 ≠ 0 || seed.length < bits / 8) = false := by
    simp [hmin, hmul, hlength]
  rw [searchStart, hvalid, hload]
  change (Integer.setBit _ _ _ >>= fun start => start.setBit 0 true) = _
  rw [htop]
  exact hstart

theorem start_pos_odd {start : Integer} {n : ℕ} (h : start.toInt = (n ||| 2 ^ 0 : ℕ)) :
    0 < start.toInt ∧ start.toInt % 2 = 1 := by
  have hodd : (n ||| 2 ^ 0) % 2 = 1 := by
    rw [pow_zero, Nat.or_mod_two_eq_one]
    exact Or.inr rfl
  omega

/-- What is known of every number that the search ends with, prime or not. -/
structure Found (bits : ℕ) (p : Integer) : Prop where
  pos : 0 < p.toInt
  odd : p.toInt % 2 = 1
  bits_eq : p.bits = bits
  not_above_multiple : (p.toInt - 1) % publicExponent ≠ 0

/-- The sieve passes an offset when it passes the number there. -/
theorem sievePasses_iff {start : Integer} {first : ℕ} (hfirst : start.toInt = first)
    (hpos : 0 < first) (offset : ℕ) :
    sievePasses (residues start) offset = true ↔
      (∀ q ∈ smallPrimes, ¬ q ∣ first + offset) ∧ ¬ publicExponent ∣ first + offset - 1 := by
  have hsize : start.magnitude.toNat = first := by
    rw [Integer.toNat_magnitude, hfirst, Int.natAbs_natCast]
  have hprime (q : ℕ) : ((first % q + offset) % q != 0) = true ↔ ¬ q ∣ first + offset := by
    rw [bne_iff_ne, Nat.mod_add_mod, Ne, ← Nat.dvd_iff_mod_eq_zero]
  have hexponent : (((first % publicExponent + (publicExponent - 1)) % publicExponent + offset) %
      publicExponent != 0) = true ↔ ¬ publicExponent ∣ first + offset - 1 := by
    rw [bne_iff_ne, Nat.dvd_iff_mod_eq_zero, publicExponent]
    omega
  rw [sievePasses, residues, List.all_cons, Bool.and_eq_true, List.all_map, List.all_eq_true,
    Magnitude.modSmall_eq, hsize, hexponent, and_comm]
  simp only [Function.comp_apply, Magnitude.modSmall_eq, hsize, hprime]

theorem sub_one_mod_ne_zero {start : Integer} (hstart : 0 < start.toInt) {offset : ℕ}
    (h : sievePasses (residues start) offset = true) :
    (start.toInt + offset - 1) % publicExponent ≠ 0 := by
  obtain ⟨first, hfirst⟩ := Int.eq_ofNat_of_zero_le hstart.le
  obtain ⟨-, habove⟩ := (sievePasses_iff hfirst (by omega) offset).mp h
  rw [Nat.dvd_iff_mod_eq_zero, publicExponent] at habove
  rw [hfirst, publicExponent]
  omega

section Search

variable {bits : ℕ} {seed : Bytes} (hmin : minPrimeBits ≤ bits) (hmul : bits % 8 = 0)
  (hmax : bits ≤ Integer.maxBits) (hlength : bits / 8 ≤ seed.length)
include hmin hmul hmax hlength

theorem exists_search_value :
    ∃ start : Integer,
      start.toInt =
        ((Bytes.ofBigEndian (seed.take (bits / 8)) ||| 2 ^ (bits - 1)) ||| 2 ^ 0 : ℕ) ∧
      (search bits seed).value =
        (walk (fun p => test p 0) (residues start) bits walkLength ⟨start, 0, 0⟩).value := by
  obtain ⟨start, hstart, hvalue⟩ := searchStart_eq_ok hmin hmul hmax hlength
  refine ⟨start, hvalue, ?_⟩
  rw [search, searchWith, Monitored.value_bind, hstart, Monitored.ofExcept, Monitored.value,
    ok_bind]

theorem found_of_search {p : Integer} (h : (search bits seed).value = .ok p) : Found bits p := by
  obtain ⟨start, hvalue, hsearch⟩ := exists_search_value hmin hmul hmax hlength
  rw [hsearch] at h
  obtain ⟨hbits, -, offset, heven, hpass, hp⟩ := walk_value_eq_ok (Walk.from_start start) h
  obtain ⟨hpos, hodd⟩ := start_pos_odd hvalue
  refine ⟨by omega, by omega, hbits, ?_⟩
  rw [hp]
  exact sub_one_mod_ne_zero hpos hpass

theorem search_value_eq_error {e : Error} (h : (search bits seed).value = .error e) :
    e = .searchExhausted := by
  obtain ⟨start, -, hsearch⟩ := exists_search_value hmin hmul hmax hlength
  rw [hsearch] at h
  exact walk_value_eq_error (fun candidate => test_value_eq_ok candidate 0) h

end Search

end Signet.Primality
