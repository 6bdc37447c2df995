import Mathlib
import Signet.Proofs.Key.Generation
import Signet.Proofs.Key.PrivateFormat

/-! The power that is put together from its parts to the two factors is the power itself. The
difference of the parts is lifted above zero by a loop, which is followed pass by pass; the passes
are those that `lifts` counts. Main statements: `raised_iff`, `splitRun_iff` and
`split_eq_direct`. -/
namespace Signet.PrivateKey

/-- A loop that adds `p` as long as a number is negative leads from the first number to the second
in so many passes. -/
inductive Raised (p : Integer) : ℕ → Integer → Integer → Prop where
  | stop {x : Integer} (h : x.isNegative = false) : Raised p 0 x x
  | pass {passes : ℕ} {x y : Integer} (h : x.isNegative = true) (hrest : Raised p passes (x + p) y) :
      Raised p (passes + 1) x y

section Loop

variable {p x y z : Integer} {m n : ℕ}

theorem Raised.unique (h : Raised p m x y) (h' : Raised p n x z) : m = n ∧ y = z := by
  induction h generalizing n with
  | stop hstop =>
    cases h' with
    | stop => exact ⟨rfl, rfl⟩
    | pass hpass => exact absurd (hpass.symm.trans hstop) nofun
  | pass hpass _ ih =>
    cases h' with
    | stop hstop => exact absurd (hpass.symm.trans hstop) nofun
    | pass _ hrest =>
      obtain ⟨rfl, rfl⟩ := ih hrest
      exact ⟨rfl, rfl⟩

theorem toInt_lifts (hp : 0 < p.toInt) (x : Integer) :
    (lifts p x).toInt = max 0 (-(x.toInt / p.toInt)) := by
  rw [lifts]
  split
  · next h =>
    have hx := (Integer.isNegative_iff x).mp h
    rw [Integer.toInt_neg, Integer.toInt_div _ _ hp,
      max_eq_right (neg_nonneg.mpr (Int.ediv_neg_of_neg_of_pos hx hp).le)]
  · next h =>
    have hx := not_lt.mp (mt (Integer.isNegative_iff x).mpr h)
    rw [Integer.toInt_zero, max_eq_left (neg_nonpos.mpr (Int.ediv_nonneg hx hp.le))]

/-- A difference that is not below `-p` is lifted once at most. -/
theorem toInt_lifts_le_one (hp : 0 < p.toInt) (hx : -p.toInt ≤ x.toInt) :
    (lifts p x).toInt ≤ 1 := by
  have hquotient : -1 ≤ x.toInt / p.toInt := by
    rw [Int.le_ediv_iff_mul_le hp]
    omega
  rw [toInt_lifts hp]
  omega

/-- The loop ends, after as many passes as are counted. -/
theorem raised_lifts (hp : 0 < p.toInt) (hn : (lifts p x).toInt = n) :
    Raised p n x (x + lifts p x * p) := by
  -- the quotient of the difference by `p` goes up by one with each pass
  induction n generalizing x with
  | zero =>
    have hzero : lifts p x = 0 := Integer.toInt_inj.mp hn
    have hself : x + lifts p x * p = x := by
      rw [← Integer.toInt_inj, hzero, Integer.toInt_add, Integer.toInt_mul, Integer.toInt_zero,
        zero_mul, add_zero]
    rw [toInt_lifts hp] at hn
    have hx : 0 ≤ x.toInt := (Int.ediv_nonneg_iff_of_pos hp).mp (by omega)
    rw [hself]
    exact .stop (Bool.eq_false_iff.mpr (mt (Integer.isNegative_iff x).mp (not_lt.mpr hx)))
  | succ n ih =>
    have hquotient : (x + p).toInt / p.toInt = x.toInt / p.toInt + 1 := by
      rw [Integer.toInt_add, Int.add_ediv_of_dvd_right dvd_rfl, Int.ediv_self hp.ne']
    have hnext : (lifts p (x + p)).toInt = n := by
      rw [toInt_lifts hp] at hn ⊢
      omega
    have hsame : x + lifts p x * p = x + p + lifts p (x + p) * p := by
      rw [← Integer.toInt_inj, Integer.toInt_add, Integer.toInt_add, Integer.toInt_add,
        Integer.toInt_mul, Integer.toInt_mul, hn, hnext]
      push_cast
      ring
    rw [toInt_lifts hp] at hn
    have hx : x.toInt < 0 := by
      by_contra hnonneg
      have := Int.ediv_nonneg (not_lt.mp hnonneg) hp.le
      omega
    rw [hsame]
    exact .pass ((Integer.isNegative_iff x).mpr hx) (ih hnext)

/-- The loop has one run, whose passes are counted without it. -/
theorem raised_iff (hp : 0 < p.toInt) :
    Raised p n x y ↔ (n : ℤ) = (lifts p x).toInt ∧ y = x + lifts p x * p := by
  constructor
  · intro h
    obtain ⟨m, hm⟩ := Int.eq_ofNat_of_zero_le ((le_max_left _ _).trans_eq (toInt_lifts hp x).symm)
    obtain ⟨rfl, rfl⟩ := h.unique (raised_lifts hp hm)
    exact ⟨hm.symm, rfl⟩
  · rintro ⟨hn, rfl⟩
    exact raised_lifts hp hn.symm

end Loop

variable {k : PrivateKey} {c : Integer}

/-- What the power to the first factor is beyond that to the second. -/
def difference (k : PrivateKey) (c : Integer) : Integer :=
  (c % k.p).modPow k.dp k.p - (c % k.q).modPow k.dq k.q

/-- A run of the private operation on `c` through its loop, with the passes and the result. -/
def SplitRun (k : PrivateKey) (c : Integer) (passes : ℕ) (result : Integer) : Prop :=
  ∃ lifted, Raised k.p passes (k.difference c) lifted ∧
    result = lifted * k.qInv % k.p * k.q + (c % k.q).modPow k.dq k.q

/-- The run through the loop ends with what the loop-free operation gives, and with nothing else. -/
theorem splitRun_iff (hp : 0 < k.p.toInt) {passes : ℕ} {result : Integer} :
    k.SplitRun c passes result ↔
      (passes : ℤ) = (lifts k.p (k.difference c)).toInt ∧ result = k.applySplit c := by
  constructor
  · rintro ⟨lifted, hraised, rfl⟩
    obtain ⟨hpasses, rfl⟩ := (raised_iff hp).mp hraised
    exact ⟨hpasses, rfl⟩
  · rintro ⟨hpasses, rfl⟩
    exact ⟨_, (raised_iff hp).mpr ⟨hpasses, rfl⟩, rfl⟩

/-- The second power is below the second factor, and so its lack is below the first. -/
theorem neg_p_le_difference (h : k.Sound) (hcurrent : k.header.version = .current) (c : Integer) :
    -k.p.toInt ≤ (k.difference c).toInt := by
  have hp := h.two_lt_p
  have hq := h.two_lt_q
  obtain ⟨hdp, hdq, -⟩ := h.reduced hcurrent
  obtain ⟨hdp0, -⟩ := inverts_reduced (by omega) h.inverts_p hdp
  obtain ⟨hdq0, -⟩ := inverts_reduced (by omega) h.inverts_q hdq
  have hfirst := Int.emod_nonneg (c.toInt ^ k.dp.toInt.natAbs) (show k.p.toInt ≠ 0 by omega)
  have hsecond := Int.emod_lt_of_pos (c.toInt ^ k.dq.toInt.natAbs) (show 0 < k.q.toInt by omega)
  have horder := h.q_lt_p
  rw [difference, Integer.toInt_sub, toInt_modPow_mod c hp hdp0, toInt_modPow_mod c hq hdq0]
  omega

/-- With prime factors both ways lead to the one root that `c` has. -/
theorem applySplit_eq_applyDirect (h : k.Sound) (hp : k.p.toInt.toNat.Prime)
    (hq : k.q.toInt.toNat.Prime) (hcurrent : k.header.version = .current) (hd : 0 ≤ k.d.toInt)
    (hc : 0 ≤ c.toInt) (hlt : c.toInt < k.n.toInt) : k.applySplit c = k.applyDirect c := by
  obtain ⟨ha, hb⟩ := inverts_natAbs h hd
  have hdirect := isRoot_applyDirect k h c
  have hback := hdirect.pow_eq h hp hq ha hb hc hlt
  exact applySplit_eq_base h hp hq hcurrent hdirect.nonneg hdirect.lt hback.symm

theorem d_nonneg_of_decode {bytes : Bytes} {pass : Digest} {used : ℕ}
    (hread : decode bytes pass = .ok (k, used)) : 0 ≤ k.d.toInt := by
  obtain ⟨-, plain, h, -⟩ := decode_eq_ok_iff_reads.mp hread
  obtain ⟨-, -, hd, -⟩ := h.secrets.plainSecrets_eq h.length_plain
  exact hd

/-- The private operation from its parts is the power itself, below the modulus, and its loop adds
the first factor once at most. Its exponent must not be negative, and neither in a key that is
generated nor in one that is read is it ever. -/
theorem split_eq_direct :
    (∀ k : PrivateKey, k.validate = .ok () → k.header.version = .current →
      k.p.toInt.toNat.Prime → k.q.toInt.toNat.Prime → 0 ≤ k.d.toInt →
      ∀ c : Integer, 0 ≤ c.toInt → c.toInt < k.n.toInt →
        k.applySplit c = k.applyDirect c ∧
        0 ≤ (k.applySplit c).toInt ∧ (k.applySplit c).toInt < k.n.toInt ∧
        ∃ passes ≤ 1, ∀ n result,
          k.SplitRun c n result ↔ n = passes ∧ result = k.applySplit c) ∧
    (∀ (σ : Type) (observer : Observer σ) (r : KeyRequest) (seed : Bytes) (s t : σ)
      (pub : PublicKey) (priv : PrivateKey),
      (r.generate seed).run observer s = (.ok (pub, priv), t) → 0 ≤ priv.d.toInt) ∧
    ∀ (bytes : Bytes) (pass : Digest) (k : PrivateKey) (used : ℕ),
      decode bytes pass = .ok (k, used) → 0 ≤ k.d.toInt := by
  refine ⟨?_, ?_, ?_⟩
  · intro k hvalid hcurrent hp hq hd c hc hlt
    have h := (validate_eq_ok_iff k).mp hvalid
    have hpos : 0 < k.p.toInt := by
      have := h.two_lt_p
      omega
    have hsame := applySplit_eq_applyDirect h hp hq hcurrent hd hc hlt
    have hroot := isRoot_applyDirect k h c
    obtain ⟨passes, hpasses⟩ := Int.eq_ofNat_of_zero_le
      ((le_max_left _ _).trans_eq (toInt_lifts hpos (k.difference c)).symm)
    have hone := toInt_lifts_le_one hpos (neg_p_le_difference h hcurrent c)
    refine ⟨hsame, ?_, ?_, passes, by omega, ?_⟩
    · rw [hsame]
      exact hroot.nonneg
    · rw [hsame]
      exact hroot.lt
    · intro n result
      rw [splitRun_iff hpos, hpasses, Nat.cast_inj]
  · intro σ observer r seed s t pub priv hrun
    exact (KeyRequest.meets_of_value (Monitored.value_of_run_eq_ok hrun)).d_pos.le
  · intro bytes pass k used hread
    exact d_nonneg_of_decode hread

/-- The textbook key leads from 2790 to 65 in both ways. The parts to its factors are 4 and 12, so
that the loop is passed through once. -/
theorem split_eq_direct_sample :
    let k := textbook .current 2753
    let c := Integer.ofUInt64 2790
    (k.validate = .ok () ∧ k.header.version = .current ∧ 0 ≤ k.d.toInt ∧ 0 ≤ c.toInt ∧
        c.toInt < k.n.toInt) ∧
      k.applySplit c = k.applyDirect c ∧ k.applyDirect c = .ofUInt64 65 ∧
      (k.difference c).toInt = -8 ∧ k.SplitRun c 1 (k.applyDirect c) ∧
      ¬ k.SplitRun c 0 (k.applyDirect c) := by
  intro k c
  have hvalid : k.validate = .ok () := by decide +kernel
  have hd : 0 ≤ k.d.toInt := by decide +kernel
  have hc : 0 ≤ c.toInt := by decide +kernel
  have hlt : c.toInt < k.n.toInt := by decide +kernel
  obtain ⟨hp, hq⟩ := textbook_primes .current 2753
  obtain ⟨hsame, -, -, passes, -, hruns⟩ :=
    split_eq_direct.1 k hvalid rfl hp hq hd c hc hlt
  have hrun : k.SplitRun c 1 (k.applySplit c) :=
    (splitRun_iff (by decide +kernel)).mpr ⟨by decide +kernel, rfl⟩
  obtain ⟨rfl, -⟩ := (hruns 1 _).mp hrun
  rw [hsame] at hrun hruns
  exact ⟨⟨hvalid, rfl, hd, hc, hlt⟩, hsame, by decide +kernel, by decide +kernel, hrun,
    fun hnone => Nat.zero_ne_one ((hruns 0 _).mp hnone).1⟩

end Signet.PrivateKey
