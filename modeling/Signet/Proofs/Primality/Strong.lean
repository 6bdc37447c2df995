import Mathlib
import Signet.Proofs.Integer.Rows
import Signet.Proofs.Primality.Trace
import Signet.Proofs.Primality.Verdict

/-! The test is the one for strong probable primes, on bases that the tested number draws from a
chain of digests. A round is passed exactly by strong probable primes to its base (`passes_iff`),
and the rounds told are those up to the first that is not passed. Main statement:
`strong_test_exact`. -/
namespace Signet

namespace Magnitude

theorem length_toWordBytes (m : Magnitude) : m.toWordBytes.length = 8 * m.wordCount := by
  induction m with
  | zero => rfl
  | word low high ih =>
    rw [toWordBytes, List.length_append, Bytes.length_littleEndian, ih, wordCount]
    ring

theorem ofLittleEndian_toWordBytes (m : Magnitude) :
    Bytes.ofLittleEndian m.toWordBytes = m.toNat := by
  induction m with
  | zero => rfl
  | word low high ih =>
    have hlow : low.toNat % 256 ^ 8 = low.toNat := Nat.mod_eq_of_lt low.toNat_lt
    rw [toWordBytes, Bytes.ofLittleEndian_append, Bytes.ofLittleEndian_littleEndian, hlow,
      Bytes.length_littleEndian, ih, toNat]
    norm_num

theorem Normal.wordCount_eq {m : Magnitude} (h : m.Normal) : m.wordCount = (m.bits + 63) / 64 := by
  have hle := (lt_two_pow_iff m _).mp m.toNat_lt
  cases m with
  | zero => rfl
  | word low high =>
    have hge := mt (lt_two_pow_iff _ (64 * high.wordCount)).mpr (not_lt.mpr h.two_pow_le)
    rw [wordCount] at hle ⊢
    omega

/-- The bytes of the words are those of the number, to the end of the highest word. -/
theorem Normal.toWordBytes_eq {m : Magnitude} (h : m.Normal) :
    m.toWordBytes = Bytes.littleEndian (8 * ((m.bits + 63) / 64)) m.toNat := by
  rw [← h.wordCount_eq, ← length_toWordBytes, ← ofLittleEndian_toWordBytes,
    Bytes.littleEndian_ofLittleEndian]

end Magnitude

namespace Primality

/-- The strong form of Fermat's condition. With `p - 1` as a power of two times an odd number, the
odd power of the base is one, or comes to minus one when it is squared less often than leads up to
the power with `p - 1`. -/
def StrongProbablePrime (p a : ℤ) : Prop :=
  ∃ b m : ℕ, p - 1 = 2 ^ b * m ∧ m % 2 = 1 ∧
    (a ^ m ≡ 1 [ZMOD p] ∨ ∃ j < b, a ^ (m * 2 ^ j) ≡ -1 [ZMOD p])

/-- A number is a power of two times an odd number in one way at most. -/
theorem two_pow_mul_odd_inj {b c m n : ℕ} (hm : m % 2 = 1) (hn : n % 2 = 1)
    (h : 2 ^ b * m = 2 ^ c * n) : b = c ∧ m = n := by
  induction b generalizing c with
  | zero =>
    cases c with
    | zero => exact ⟨rfl, by simpa using h⟩
    | succ c =>
      rw [pow_zero, pow_succ', mul_assoc] at h
      omega
  | succ b ih =>
    cases c with
    | zero =>
      rw [pow_zero, pow_succ', mul_assoc] at h
      omega
    | succ c =>
      rw [pow_succ', pow_succ', mul_assoc, mul_assoc] at h
      obtain ⟨rfl, rfl⟩ := ih (Nat.eq_of_mul_eq_mul_left two_pos h)
      exact ⟨rfl, rfl⟩

theorem strongProbablePrime_iff {p : ℤ} {b m : ℕ} (hsplit : p - 1 = 2 ^ b * m) (hm : m % 2 = 1)
    (a : ℤ) : StrongProbablePrime p a ↔
      a ^ m ≡ 1 [ZMOD p] ∨ ∃ j < b, a ^ (m * 2 ^ j) ≡ -1 [ZMOD p] := by
  constructor
  · rintro ⟨c, n, hc, hn, hpower⟩
    have h : 2 ^ b * m = 2 ^ c * n := by exact_mod_cast hsplit.symm.trans hc
    obtain ⟨rfl, rfl⟩ := two_pow_mul_odd_inj hm hn h
    exact hpower
  · exact fun hpower => ⟨b, m, hsplit, hm, hpower⟩

/-- What is left of a number without its twos is odd, when they are looked for often enough. -/
theorem splitTwos_odd (count : ℕ) (m : Integer) (hm : 0 < m.toInt) (hlt : m.toInt < 2 ^ count) :
    (splitTwos count m).2.toInt % 2 = 1 := by
  induction count generalizing m with
  | zero =>
    rw [pow_zero] at hlt
    omega
  | succ count ih =>
    have hodd := Integer.isOdd_iff m
    rw [splitTwos, Integer.isEven]
    cases hcase : m.isOdd with
    | true => exact hodd.mp hcase
    | false =>
      have heven := mt hodd.mpr (Bool.eq_false_iff.mp hcase)
      have hhalf := toInt_halve hm.le
      rw [pow_succ'] at hlt
      exact ih m.halve (by omega) (by omega)

section Fit

variable {p : Integer} (hp : 3 ≤ p.toInt)
include hp

theorem modEq_neg_one_iff {z : ℤ} (hz : 0 ≤ z) (hlt : z < p.toInt) :
    z ≡ -1 [ZMOD p.toInt] ↔ z = p.toInt - 1 := by
  have hminus : p.toInt - 1 ≡ -1 [ZMOD p.toInt] := by
    rw [Int.modEq_iff_dvd]
    exact ⟨-1, by ring⟩
  constructor
  · intro h
    have hmod := h.trans hminus.symm
    rwa [Int.ModEq, Int.emod_eq_of_lt hz hlt, Int.emod_eq_of_lt (by omega) (by omega)] at hmod
  · rintro rfl
    exact hminus

theorem squaresReach_iff (count : ℕ) (z : Integer) (hz : 0 ≤ z.toInt) (hlt : z.toInt < p.toInt) :
    squaresReach p (p - 1) count z = true ↔
      ∃ j < count, z.toInt ^ 2 ^ j ≡ -1 [ZMOD p.toInt] := by
  induction count generalizing z with
  | zero => simp [squaresReach]
  | succ count ih =>
    have hsquare : (z * z % p).toInt = z.toInt * z.toInt % p.toInt := by
      rw [Integer.toInt_mod _ _ (by omega), Integer.toInt_mul]
    have hnonneg : 0 ≤ (z * z % p).toInt := by
      rw [hsquare]
      exact Int.emod_nonneg _ (by omega)
    have hless : (z * z % p).toInt < p.toInt := by
      rw [hsquare]
      exact Int.emod_lt_of_pos _ (by omega)
    have hfirst : (z == p - 1) = true ↔ z.toInt ^ 2 ^ 0 ≡ -1 [ZMOD p.toInt] := by
      rw [beq_iff_eq, ← Integer.toInt_inj, Integer.toInt_sub, Integer.toInt_one, pow_zero, pow_one,
        modEq_neg_one_iff hp hz hlt]
    have hnext (j : ℕ) : (z * z % p).toInt ^ 2 ^ j ≡ -1 [ZMOD p.toInt] ↔
        z.toInt ^ 2 ^ (j + 1) ≡ -1 [ZMOD p.toInt] := by
      have hpow : (z * z % p).toInt ^ 2 ^ j ≡ z.toInt ^ 2 ^ (j + 1) [ZMOD p.toInt] := by
        rw [hsquare, pow_succ' 2 j, pow_mul, sq]
        exact (Int.mod_modEq _ _).pow _
      exact ⟨hpow.symm.trans, hpow.trans⟩
    rw [squaresReach, Bool.or_eq_true, hfirst, ih _ hnonneg hless]
    simp only [hnext]
    exact (Nat.exists_lt_succ_left (p := fun j => z.toInt ^ 2 ^ j ≡ -1 [ZMOD p.toInt])).symm

/-- What is looked for among the squares of the remainder that a power leaves is said of the power
itself. -/
theorem remainder_reaches_iff {z : Integer} {a : ℤ} {m : ℕ} (hz : z.toInt = a ^ m % p.toInt)
    (count : ℕ) :
    z.isOne = true ∨ squaresReach p (p - 1) count z = true ↔
      a ^ m ≡ 1 [ZMOD p.toInt] ∨ ∃ j < count, a ^ (m * 2 ^ j) ≡ -1 [ZMOD p.toInt] := by
  have hnonneg : 0 ≤ z.toInt := by
    rw [hz]
    exact Int.emod_nonneg _ (by omega)
  have hlt : z.toInt < p.toInt := by
    rw [hz]
    exact Int.emod_lt_of_pos _ (by omega)
  have hmod : z.toInt ≡ a ^ m [ZMOD p.toInt] := by
    rw [hz]
    exact Int.mod_modEq _ _
  have hone : z.isOne = true ↔ a ^ m ≡ 1 [ZMOD p.toInt] := by
    rw [Integer.isOne_iff, hz, Int.ModEq,
      Int.emod_eq_of_lt zero_le_one (show (1 : ℤ) < p.toInt by omega)]
  have hpow (j : ℕ) : z.toInt ^ 2 ^ j ≡ -1 [ZMOD p.toInt] ↔
      a ^ (m * 2 ^ j) ≡ -1 [ZMOD p.toInt] := by
    rw [pow_mul]
    exact ⟨(hmod.pow _).symm.trans, (hmod.pow _).trans⟩
  rw [hone, squaresReach_iff hp _ _ hnonneg hlt]
  simp only [hpow]

/-- A base does not give the candidate away exactly when the candidate is a strong probable prime
to it. -/
theorem passes_iff (hodd : p.toInt % 2 = 1) (base : Integer) :
    (Candidate.of p).passes base = true ↔ StrongProbablePrime p.toInt base.toInt := by
  have hminus : (p - 1).toInt = p.toInt - 1 := by rw [Integer.toInt_sub, Integer.toInt_one]
  have hsize : (p - 1).toInt < 2 ^ (p - 1).bits := by
    have := (Integer.bits_le_iff (p - 1) _).mp le_rfl
    have : ((p - 1).toInt.natAbs : ℤ) < 2 ^ (p - 1).bits := by exact_mod_cast this
    omega
  obtain ⟨hpos, hsplit⟩ := splitTwos_spec (p - 1).bits (p - 1) (by omega)
  have hm := splitTwos_odd (p - 1).bits (p - 1) (by omega) hsize
  rw [Candidate.passes, Bool.or_eq_true]
  change (base.modPow (splitTwos (p - 1).bits (p - 1)).2 p).isOne = true ∨
    squaresReach p (p - 1) (splitTwos (p - 1).bits (p - 1)).1
      (base.modPow (splitTwos (p - 1).bits (p - 1)).2 p) = true ↔ _
  generalize splitTwos (p - 1).bits (p - 1) = parts at hpos hsplit hm ⊢
  have hparts : p.toInt - 1 = 2 ^ parts.1 * (parts.2.toInt.natAbs : ℕ) := by
    rw [← hminus, hsplit, Int.natAbs_of_nonneg hpos.le]
  have hvalue := Integer.toInt_modPow_of_one_lt base parts.2 p hpos.ne' (by omega)
  rw [strongProbablePrime_iff hparts (by omega), remainder_reaches_iff hp hvalue]

end Fit

/-- What the chain of a number takes in: its bytes, the lowest first, up to the end of its highest
word. -/
def saltOf (p : Integer) : Bytes :=
  Bytes.littleEndian (8 * ((p.bits + 63) / 64)) p.toInt.natAbs

/-- What a number draws for one of its rounds. The stream begins behind the digest of sixteen zero
bytes and the salt, and each round takes as many bytes of it as hold the number, from a new digest
on. -/
def drawn (p : Integer) (i : ℕ) : Bytes :=
  let length := (p.bits + 7) / 8
  let start := Md5.digest (Bytes.zeros 16 ++ saltOf p)
  HashChain.stream Md5.digest
    ((HashChain.nextPool Md5.digest)^[i * (length ⌈/⌉ 16)] start) length

/-- The base of a round: one digit less than the number has, with the highest one set and the others
as they were drawn. -/
def roundBase (p : Integer) (i : ℕ) : ℕ :=
  2 ^ (p.bits - 2) + Bytes.ofBigEndian (drawn p i) % 2 ^ (p.bits - 2)

theorem toWordBytes_eq_saltOf (p : Integer) : p.magnitude.toWordBytes = saltOf p := by
  rw [p.normal.toWordBytes_eq, Integer.toNat_magnitude]
  rfl

section Drawn

variable {p : Integer} (hp : 3 ≤ p.toInt)
include hp

theorem saltOf_ne_nil : saltOf p ≠ [] := by
  have hbits : 2 ≤ p.bits := (Integer.two_le_bits_iff (by omega)).mpr (by omega)
  apply List.ne_nil_of_length_pos
  rw [saltOf, Bytes.length_littleEndian]
  omega

/-- The chain that takes in a number gives its rounds what the number draws for them. -/
theorem fillAt_eq_drawn (i : ℕ) :
    (.ofSalt (saltOf p) : Md5Chain).fillAt ((p.bits + 7) / 8) i = drawn p i := by
  rw [HashChain.fillAt_eq, HashChain.pool_ofSalt (saltOf_ne_nil hp)]
  rfl

theorem passesAt_iff (hodd : p.toInt % 2 = 1) (i : ℕ) :
    (Candidate.of p).PassesAt (.ofSalt p.magnitude.toWordBytes : Md5Chain) i ↔
      StrongProbablePrime p.toInt (roundBase p i) := by
  have hbits : 2 ≤ p.bits := (Integer.two_le_bits_iff (by omega)).mpr (by omega)
  rw [Candidate.PassesAt, Candidate.of_p, toWordBytes_eq_saltOf, fillAt_eq_drawn hp,
    passes_iff hp hodd, toInt_witness hbits]
  rfl

end Drawn

/-- A verdict on a number in at most so many rounds, and the events that are told on the way to it,
as the condition for strong probable primes has them. -/
structure StrongVerdict (p : Integer) (rounds : ℕ) (verdict : Bool) (told : List Event) : Prop where
  true_iff : verdict = true ↔ p.toInt % 2 = 1 ∧ 3 ≤ p.toInt ∧
    ∀ i < rounds, StrongProbablePrime p.toInt (roundBase p i)
  told_of_true : verdict = true → told = roundsTold rounds
  told_of_false : verdict = false → p.toInt % 2 = 1 → 3 ≤ p.toInt → ∃ i < rounds,
    (∀ j < i, StrongProbablePrime p.toInt (roundBase p j)) ∧
      ¬ StrongProbablePrime p.toInt (roundBase p i) ∧ told = roundsTold (i + 1)
  told_of_unfit : ¬ (p.toInt % 2 = 1 ∧ 3 ≤ p.toInt) → told = []

theorem strongVerdict_test (p : Integer) (requested : ℕ) {verdict : Bool}
    (hverdict : (test p requested).value = .ok verdict) :
    StrongVerdict p (effectiveRounds requested p.bits) verdict (test p requested).events := by
  by_cases hfit : p.toInt % 2 = 1 ∧ 3 ≤ p.toInt
  · obtain ⟨hodd, hp⟩ := hfit
    have hpass (i : ℕ) := passesAt_iff hp hodd i
    rw [test, testWith_of_fit _ _ hodd hp] at hverdict ⊢
    rcases (Candidate.of p).rounds_outcome (.ofSalt p.magnitude.toWordBytes : Md5Chain)
        (effectiveRounds requested p.bits) 0 with
      ⟨hall, hvalue, hevents⟩ | ⟨i, hi, hbefore, hfail, hvalue, hevents⟩
    · obtain rfl : verdict = true := Except.ok.inj (hverdict.symm.trans hvalue)
      constructor
      case true_iff =>
        exact iff_of_true rfl ⟨hodd, hp, fun i hi => (hpass i).mp (hall i hi)⟩
      case told_of_true =>
        intro _
        rw [hevents, roundsTold, List.range_eq_range']
      case told_of_false =>
        intro h
        cases h
      case told_of_unfit =>
        intro h
        exact absurd ⟨hodd, hp⟩ h
    · obtain rfl : verdict = false := Except.ok.inj (hverdict.symm.trans hvalue)
      constructor
      case true_iff =>
        refine iff_of_false Bool.false_ne_true fun h => ?_
        exact hfail ((hpass i).mpr (h.2.2 i hi))
      case told_of_true =>
        intro h
        cases h
      case told_of_false =>
        intro _ _ _
        refine ⟨i, hi, fun j hj => (hpass j).mp (hbefore j hj), mt (hpass i).mpr hfail, ?_⟩
        rw [hevents, roundsTold, List.range_eq_range']
      case told_of_unfit =>
        intro h
        exact absurd ⟨hodd, hp⟩ h
  · rw [test, testWith_of_unfit _ _ hfit] at hverdict ⊢
    obtain rfl : false = verdict := Except.ok.inj hverdict
    constructor
    case true_iff => exact iff_of_false Bool.false_ne_true fun h => hfit ⟨h.1, h.2.1⟩
    case told_of_true =>
      intro h
      cases h
    case told_of_false => exact fun _ hodd hp => absurd ⟨hodd, hp⟩ hfit
    case told_of_unfit => exact fun _ => rfl

/-- Under an observer that answers nothing it hears with a stop, a number is accepted exactly when
it is odd, at least three, and a strong probable prime to the base of every round. All rounds are
told then, else those up to the first base that gives the number away, and none when the number is
even, negative or one. -/
theorem strong_test_exact {σ : Type} (observer : Observer σ) (s : σ) (p : Integer) (requested : ℕ)
    (hgoes : ∀ i, ¬ observer.StopsAt s ((test p requested).heard observer s) i) :
    StrongVerdict p (if requested < 5 then roundsFor p.bits else requested)
      (isProbablyPrimeUnder observer p requested s).1 ((test p requested).heard observer s) := by
  obtain ⟨verdict, hverdict⟩ := test_value_eq_ok p requested
  have hproper := proper_test p requested
  have hresult : (isProbablyPrimeUnder observer p requested s).1 = verdict := by
    rw [isProbablyPrimeUnder_fst, hproper.fst_run_eq_value hgoes, hverdict]
  rw [hresult, hproper.heard_eq_events_of_goes hgoes]
  exact strongVerdict_test p requested hverdict

/-- A product of three primes that is a strong probable prime to the bases 2, 3, 5 and 7, under an
observer that counts what it hears: one of six rounds gives it away and is the last that is told. -/
theorem strong_test_exact_sample :
    let p := Integer.ofUInt64 3215031751
    let observer : Observer ℕ := fun heard _ => (false, heard + 1)
    (∀ i, ¬ observer.StopsAt 0 ((test p 6).heard observer 0) i) ∧
      (isProbablyPrimeUnder observer p 6 0).1 = false ∧
      ∃ i < 6, ¬ StrongProbablePrime 3215031751 (roundBase p i) ∧
        (test p 6).heard observer 0 = roundsTold (i + 1) := by
  intro p observer
  have hgoes (i : ℕ) : ¬ observer.StopsAt 0 ((test p 6).heard observer 0) i := by
    rintro ⟨event, -, -, hstop⟩
    cases hstop
  have hp : p.toInt = 3215031751 := by decide
  have hverdict : (isProbablyPrimeUnder observer p 6 0).1 = false := by decide +kernel
  obtain ⟨i, hi, -, hfail, hheard⟩ :=
    (strong_test_exact observer 0 p 6 hgoes).told_of_false hverdict (by decide) (by decide)
  rw [hp] at hfail
  exact ⟨hgoes, hverdict, i, hi, hfail, hheard⟩

end Primality
end Signet
