import Mathlib
import Signet.Proofs.Primality.First

/-! How far behind its start the search looks. The bound on its steps is asked for only where the
sieve stops a number, so a number that is refused at the last allowed offset is followed by a look
at the next one. Main statement: `bound_kept_iff`. -/
namespace Signet.Primality

/-- The loop of a search by a predicate in place of the test. -/
def Loop.judgedBy {σ : Type} (accepts : Integer → Bool) (observer : Observer σ) (start : Integer)
    (bits : ℕ) (s : σ) : Loop σ :=
  ⟨fun p => pure (accepts p), observer, start, bits, s⟩

/-- Every number of this size up to the last allowed offset that the sieve lets through is refused. -/
def RefusesInBound (accepts : Integer → Bool) (start : Integer) (bits : ℕ) : Prop :=
  ∀ j ≤ maxStep, j % 2 = 0 → sievePasses (residues start) j = true →
    ∀ p : Integer, p.toInt = start.toInt + j → p.bits = bits → accepts p = false

/-- The bound on the steps of a search, as it is promised: nothing behind the last allowed offset is
tested or returned, and when all up to there is refused the steps are used up. -/
structure Loop.KeepsBound {σ : Type} (l : Loop σ) (accepts : Integer → Bool)
    (result : Except Error Integer) : Prop where
  tested_le : ∀ w t, l.Comes (.trial w) t → w.candidate.toInt ≤ l.start.toInt + maxStep
  returned_le : ∀ p, result = .ok p → p.toInt ≤ l.start.toInt + maxStep
  ends : RefusesInBound accepts l.start l.bits → result = .error .searchExhausted

/-- What takes a search behind the last allowed offset: it gets there without an acceptance, and the
sieve stops neither the number there nor the next one, which is not too large. -/
structure PassesBound (accepts : Integer → Bool) (start : Integer) (bits : ℕ) : Prop where
  last_passes : sievePasses (residues start) maxStep = true
  next_passes : sievePasses (residues start) (maxStep + 2) = true
  next_fits : start.toInt + (maxStep + 2 : ℕ) < 2 ^ bits
  refused : RefusesInBound accepts start bits

section

variable {σ : Type} {accepts : Integer → Bool} {observer : Observer σ} {start : Integer} {bits : ℕ}
  {s : σ}

theorem Loop.Tested.accepts_eq {j : ℕ} {p : Integer} {accepted : Bool}
    (h : (Loop.judgedBy accepts observer start bits s).Tested j p accepted) :
    accepts p = accepted := by
  obtain ⟨t, -, hverdict⟩ := h.judged
  exact Except.ok.inj hverdict

/-- A number that is tested behind the last allowed offset lies at the next one, and the search has
come there past the bound. -/
theorem passesBound_of_trial {w : Walk} {t : σ}
    (hcomes : (Loop.judgedBy accepts observer start bits s).Comes (.trial w) t)
    (hbits : 0 < bits) (hstart : 2 ^ (bits - 1) ≤ start.toInt)
    (hbeyond : start.toInt + maxStep < w.candidate.toInt) :
    PassesBound accepts start bits ∧ w.base = maxStep + 2 := by
  have hmax := Loop.maxStep_even
  cases hcomes.sound with
  | @trial v hv hpass p hp hsize =>
    change p.toInt = start.toInt + v.offset at hp
    change start.toInt + maxStep < p.toInt at hbeyond
    have heven := hv.offset_even
    have hle := hv.offset_le_of_pass hpass
    have hoffset : v.offset = maxStep + 2 := by omega
    rw [hoffset] at hpass hp
    refine ⟨⟨hv.passed maxStep (by omega) hmax le_rfl, hpass, ?_, ?_⟩, hoffset⟩
    · exact (bits_eq_iff hbits hstart hp).mp hsize
    · intro j hj hj2 hjpass q hq _
      obtain ⟨p', hp'⟩ := hv.refused j (by omega) hj2 hjpass
      obtain rfl : q = p' := Integer.toInt_inj.mp (hq.trans hp'.value_eq.symm)
      exact hp'.accepts_eq

/-- A number that is returned has been tested. -/
theorem Loop.Comes.tested_of_ok {l : Loop σ} {p : Integer} {t : σ}
    (hend : l.Comes (.ended (.ok p)) t) :
    ∃ w, l.Clear w ∧ sievePasses l.sieve w.offset = true ∧ l.Tested w.offset p true := by
  cases hend.sound with
  | found hw hpass hp => exact ⟨_, hw, hpass, hp⟩

/-- Where a search is taken past the bound, the number at the next offset is tested. -/
theorem PassesBound.tested (h : PassesBound accepts start bits)
    (hgoes : ∀ t event, (observer t event).1 = false) (hbits : 0 < bits)
    (hstart : 2 ^ (bits - 1) ≤ start.toInt) {result : Except Error Integer} {t : σ}
    (hend : (Loop.judgedBy accepts observer start bits s).Comes (.ended result) t) :
    ∃ p, (Loop.judgedBy accepts observer start bits s).Tested (maxStep + 2) p (accepts p) ∧
      (accepts p = true → result = .ok p) := by
  have hmax := Loop.maxStep_even
  have hbehind {w : Walk} (hw : (Loop.judgedBy accepts observer start bits s).Clear w)
      (hlt : maxStep + 2 < w.offset) :
      ∃ p, (Loop.judgedBy accepts observer start bits s).Tested (maxStep + 2) p (accepts p) ∧
        (accepts p = true → result = .ok p) := by
    obtain ⟨p, hp⟩ := hw.refused (maxStep + 2) hlt (by omega) h.next_passes
    have hrefused := hp.accepts_eq
    refine ⟨p, hrefused ▸ hp, fun haccepted => ?_⟩
    rw [hrefused] at haccepted
    cases haccepted
  -- the loop has ended at an offset behind the next one, or with the number that is there
  have hsound := hend.sound
  generalize hlast : Moment.ended result = m at hsound
  cases hsound with
  | turn | look | counted | trial => cases hlast
  | @found w hw hpass p hp =>
    cases hlast
    have haccepted := hp.accepts_eq
    have hle := hw.offset_le_of_pass hpass
    have heven := hw.offset_even
    have hlt : maxStep < w.offset := by
      by_contra hnot
      have hrefused := h.refused w.offset (not_lt.mp hnot) heven hpass p hp.value_eq hp.bits_eq
      rw [haccepted] at hrefused
      cases hrefused
    have hoffset : w.offset = maxStep + 2 := by omega
    rw [hoffset, ← haccepted] at hp
    exact ⟨p, hp, fun _ => rfl⟩
  | @usedUp w hw hstop hused =>
    have heven := hw.offset_even
    have hne {j : ℕ} (hj : sievePasses (residues start) j = true) : w.offset ≠ j := by
      rintro rfl
      exact Bool.false_ne_true (hstop.symm.trans hj)
    have hlast := hne h.last_passes
    have hnext := hne h.next_passes
    exact hbehind hw (by omega)
  | @outgrown w hw hpass p hp hsize =>
    have hlarge := mt (bits_eq_iff hbits hstart hp).mpr hsize
    have hfits := h.next_fits
    change ¬ start.toInt + w.offset < 2 ^ bits at hlarge
    exact hbehind hw (by omega)
  | @stopped t event hstop => exact absurd (hgoes t event) (ne_of_eq_of_ne hstop nofun)
  | failed hfail => cases hfail

/-- A search that nothing takes past the bound keeps it. -/
theorem Loop.keepsBound_of_not_passes (h : ¬ PassesBound accepts start bits)
    (hgoes : ∀ t event, (observer t event).1 = false) (hbits : 0 < bits)
    (hstart : 2 ^ (bits - 1) ≤ start.toInt) {result : Except Error Integer} {t : σ}
    (hend : (Loop.judgedBy accepts observer start bits s).Comes (.ended result) t) :
    (Loop.judgedBy accepts observer start bits s).KeepsBound accepts result := by
  have htested (w : Walk) (u : σ)
      (hcomes : (Loop.judgedBy accepts observer start bits s).Comes (.trial w) u) :
      w.candidate.toInt ≤ start.toInt + maxStep := by
    by_contra hbeyond
    exact h (passesBound_of_trial hcomes hbits hstart (not_le.mp hbeyond)).1
  have hreturned (p : Integer) (hp : result = .ok p) : p.toInt ≤ start.toInt + maxStep := by
    rw [hp] at hend
    obtain ⟨w, -, -, hjudged⟩ := hend.tested_of_ok
    obtain ⟨u, hcomes, -⟩ := hjudged.judged
    exact htested _ u hcomes
  refine ⟨htested, hreturned, fun hrefuses => ?_⟩
  cases hresult : result with
  | ok p =>
    have hle := hreturned p hresult
    rw [hresult] at hend
    obtain ⟨w, hw, hpass, hjudged⟩ := hend.tested_of_ok
    have hvalue : p.toInt = start.toInt + w.offset := hjudged.value_eq
    have hrefused := hrefuses w.offset (by omega) hw.offset_even hpass p hvalue hjudged.bits_eq
    rw [hjudged.accepts_eq] at hrefused
    cases hrefused
  | error e =>
    rw [hresult] at hend
    cases hend.sound with
    | usedUp | outgrown => rfl
    | @stopped t event hstop => exact absurd (hgoes t event) (ne_of_eq_of_ne hstop nofun)
    | failed hfail => cases hfail

end

/-- A search by a predicate keeps to the bound on its steps unless all up to the last allowed offset
is refused and neither the number there nor the next one is stopped by the sieve or too large. -/
theorem bound_kept_iff {bits : ℕ} {seed : Bytes} (hmin : minPrimeBits ≤ bits) (hmul : bits % 8 = 0)
    (hmax : bits ≤ Integer.maxBits) (hlength : bits / 8 ≤ seed.length) (accepts : Integer → Bool)
    {σ : Type} {observer : Observer σ} (hgoes : ∀ t event, (observer t event).1 = false) (s : σ) :
    ∃ start, searchStart bits seed = .ok start ∧
      ((Loop.judgedBy accepts observer start bits s).KeepsBound accepts
          ((searchWith (fun p => pure (accepts p)) bits seed).run observer s).1 ↔
        ¬ PassesBound accepts start bits) := by
  obtain ⟨start, hstart, hfirst⟩ := searchStart_eq_ok hmin hmul hmax hlength
  have hbits : 0 < bits := lt_of_lt_of_le (by decide) hmin
  have hsize := two_pow_le_start hfirst
  have hends : (Loop.judgedBy accepts observer start bits s).EndsAs
      ((searchWith (fun p => pure (accepts p)) bits seed).run observer s) :=
    Loop.endsAs_search hstart
  refine ⟨start, hstart, fun hkeeps hpasses => ?_, fun hnot => ?_⟩
  · obtain ⟨p, hp, -⟩ := hpasses.tested hgoes hbits hsize hends
    obtain ⟨t, hcomes, -⟩ := hp.judged
    have hle := hkeeps.tested_le _ t hcomes
    have hvalue := hp.value_eq
    push_cast at hvalue
    dsimp only at hle
    omega
  · exact Loop.keepsBound_of_not_passes hnot hgoes hbits hsize hends

/-- A search that refuses every number, from a start whose number at the last allowed offset is a
multiple of 3. -/
theorem bound_kept_sample :
    let seed : Bytes := Bytes.zeros 31 ++ [0x1B]
    (minPrimeBits ≤ 256 ∧ 256 % 8 = 0 ∧ 256 ≤ Integer.maxBits ∧ 256 / 8 ≤ seed.length) ∧
      (∀ t event, (Observer.idle t event).1 = false) ∧
      ∃ start, searchStart 256 seed = .ok start ∧
        (Loop.judgedBy (fun _ => false) .idle start 256 ()).KeepsBound (fun _ => false)
          ((searchWith (fun _ => pure false) 256 seed).run .idle ()).1 := by
  intro seed
  have hvalid : minPrimeBits ≤ 256 ∧ 256 % 8 = 0 ∧ 256 ≤ Integer.maxBits ∧
      256 / 8 ≤ seed.length := by decide
  obtain ⟨hmin, hmul, hmax, hlength⟩ := hvalid
  have hnumber : (Bytes.ofBigEndian (seed.take (256 / 8)) ||| 2 ^ (256 - 1)) ||| 2 ^ 0 =
      2 ^ 255 + 27 := by decide +kernel
  have hstopped : ¬ ∀ q ∈ smallPrimes, ¬ q ∣ 2 ^ 255 + 27 + maxStep := by decide +kernel
  obtain ⟨start, hstart, hkeeps⟩ :=
    bound_kept_iff hmin hmul hmax hlength (fun _ => false) Observer.idle_silent ()
  refine ⟨⟨hmin, hmul, hmax, hlength⟩, Observer.idle_silent, start, hstart, hkeeps.mpr ?_⟩
  obtain ⟨start', hstart', hfirst⟩ := searchStart_eq_ok hmin hmul hmax hlength
  cases hstart.symm.trans hstart'
  rw [hnumber] at hfirst
  intro hpasses
  exact hstopped ((sievePasses_iff hfirst (by decide) _).mp hpasses.last_passes).1

/-- A search by a predicate that refuses all up to the last allowed offset and nothing behind it. The
sieve stops neither the number there nor the next one, which is returned. -/
theorem bound_passed_sample :
    let seed : Bytes := Bytes.zeros 31 ++ [0x4D]
    let accepts : Integer → Bool := fun p => decide ((2 ^ 255 + 77 + maxStep : ℕ) < p.toInt)
    (minPrimeBits ≤ 256 ∧ 256 % 8 = 0 ∧ 256 ≤ Integer.maxBits ∧ 256 / 8 ≤ seed.length) ∧
      ∃ start p, searchStart 256 seed = .ok start ∧ RefusesInBound accepts start 256 ∧
        ((searchWith (fun p => pure (accepts p)) 256 seed).run .idle ()).1 = .ok p ∧
        p.toInt = start.toInt + (maxStep + 2 : ℕ) := by
  intro seed accepts
  have hvalid : minPrimeBits ≤ 256 ∧ 256 % 8 = 0 ∧ 256 ≤ Integer.maxBits ∧
      256 / 8 ≤ seed.length := by decide
  obtain ⟨hmin, hmul, hmax, hlength⟩ := hvalid
  obtain ⟨start, hstart, hfirst⟩ := searchStart_eq_ok hmin hmul hmax hlength
  have hsize := two_pow_le_start hfirst
  have hnumber : (Bytes.ofBigEndian (seed.take (256 / 8)) ||| 2 ^ (256 - 1)) ||| 2 ^ 0 =
      2 ^ 255 + 77 := by decide +kernel
  rw [hnumber] at hfirst
  have hsieve (offset : ℕ) := sievePasses_iff hfirst (by decide) offset
  have hpasses : PassesBound accepts start 256 := by
    constructor
    case last_passes =>
      rw [hsieve]
      decide +kernel
    case next_passes =>
      rw [hsieve]
      decide +kernel
    case next_fits =>
      rw [hfirst]
      decide +kernel
    case refused =>
      intro j hj _ _ p hp _
      rw [hfirst] at hp
      apply decide_eq_false
      push_cast at hp ⊢
      omega
  obtain ⟨p, hp, hreturned⟩ := hpasses.tested Observer.idle_silent (by decide) hsize
    (Loop.endsAs_search hstart : (Loop.judgedBy accepts .idle start 256 ()).EndsAs _)
  have hvalue : p.toInt = start.toInt + (maxStep + 2 : ℕ) := hp.value_eq
  refine ⟨⟨hmin, hmul, hmax, hlength⟩, start, p, hstart, hpasses.refused, hreturned ?_, hvalue⟩
  apply decide_eq_true
  rw [hvalue, hfirst]
  push_cast
  omega

end Signet.Primality
