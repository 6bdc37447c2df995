import Mathlib
import Signet.Proofs.Primality.Trace

/-! The search for a prime as a loop, step by step, in counters that are words of 32 binary digits.
A sum that leaves its word, or a difference that borrows, has no next step. `Moment.Sound`
is what is known wherever the loop comes to, and is kept by each step (`Moment.Sound.next`). Main
statements: `Loop.Comes.sound`, `Loop.endsAs_search` for the end, `Loop.cancelled_iff` for the ends
that an observer asks for, and `search_stays_in_words`. -/
namespace Signet.Primality

/-- Where the loop of the search is, with its counters. -/
inductive Moment where
  -- the sieve is about to be taken up
  | turn (w : Walk)
  -- the sieve looks at the offset
  | look (w : Walk)
  -- the sieve has stopped an offset, and the next one is counted
  | counted (w : Walk)
  -- the candidate is put to the test
  | trial (w : Walk)
  | ended (result : Except Error Integer)

/-- The counters, while the loop goes on. -/
def Moment.walk? : Moment → Option Walk
  | turn w | look w | counted w | trial w => some w
  | ended _ => none

/-- A sum, where a word holds it. -/
def sum? (a b : ℕ) : Option ℕ := if a + b < 2 ^ 32 then some (a + b) else none

/-- A difference, where nothing is borrowed. -/
def difference? (a b : ℕ) : Option ℕ := if b ≤ a then some (a - b) else none

/-- What the sieve says of an offset, where words hold the sums with all of its residues. -/
def sievePasses? (sieve : List Residue) (offset : ℕ) : Option Bool :=
  if ∀ r ∈ sieve, r.residue + offset < 2 ^ 32 then some (sievePasses sieve offset) else none

/-- What the loop of a search is given. -/
structure Loop (σ : Type) where
  verdict : Integer → Monitored Bool
  observer : Observer σ
  start : Integer
  bits : ℕ
  -- what the observer is before the loop
  before : σ

namespace Loop

variable {σ : Type} (l : Loop σ)

def sieve : List Residue := residues l.start

/-- The next moment, and what the observer is then. There is none at the end, and none where a
counter would leave its word. -/
def next? : Moment → σ → Option (Moment × σ)
  | .turn w, s =>
    match l.observer s (.sieve (w.offset / 2)) with
    | (true, t) => some (.ended (.error .cancelled), t)
    | (false, t) => some (.look w, t)
  | .look w, s => do
    let passes ← sievePasses? l.sieve w.offset
    let offset ← sum? w.offset 2
    if passes then
      let distance ← difference? w.offset w.base
      let candidate := w.candidate + .ofUInt64 (UInt64.ofNat distance)
      if candidate.bits ≠ l.bits then some (.ended (.error .searchExhausted), s)
      else some (.trial { candidate, base := w.offset, offset }, s)
    else some (.counted { w with offset }, s)
  | .counted w, s =>
    if w.offset > maxStep then some (.ended (.error .searchExhausted), s) else some (.look w, s)
  | .trial w, s =>
    match (l.verdict w.candidate).run l.observer s with
    | (.ok true, t) => some (.ended (.ok w.candidate), (l.observer t .primeFound).2)
    | (.ok false, t) => some (.turn w, t)
    | (.error e, t) => some (.ended (.error e), t)
  | .ended _, _ => none

/-- Whether the steps from one moment come to another. -/
def Leads : Moment × σ → Moment × σ → Prop :=
  Relation.ReflTransGen fun a b => l.next? a.1 a.2 = some b

/-- Whether the loop comes to a moment. -/
def Comes (m : Moment) (t : σ) : Prop := l.Leads (.turn ⟨l.start, 0, 0⟩, l.before) (m, t)

/-- Whether the loop comes to this end. -/
def EndsAs (outcome : Except Error Integer × σ) : Prop := l.Comes (.ended outcome.1) outcome.2

/-- The number at an offset was put to the test, and this was the verdict. -/
structure Tested (j : ℕ) (p : Integer) (accepted : Bool) : Prop where
  value_eq : p.toInt = l.start.toInt + j
  bits_eq : p.bits = l.bits
  judged : ∃ t, l.Comes (.trial ⟨p, j, j + 2⟩) t ∧
    ((l.verdict p).run l.observer t).1 = .ok accepted

/-- What holds of the counters before the sieve looks at an offset. -/
structure Clear (w : Walk) : Prop where
  candidate_eq : w.candidate.toInt = l.start.toInt + w.base
  base_even : w.base % 2 = 0
  offset_even : w.offset % 2 = 0
  base_le : w.base ≤ w.offset
  -- all that the sieve let through was refused
  refused : ∀ j < w.offset, j % 2 = 0 → sievePasses l.sieve j = true → ∃ p, l.Tested j p false
  -- the last allowed offset is only left behind by numbers that the sieve lets through
  passed : ∀ j < w.offset, j % 2 = 0 → maxStep ≤ j → sievePasses l.sieve j = true

end Loop

/-- What is known of a moment that the loop comes to. -/
inductive Moment.Sound {σ : Type} (l : Loop σ) : Moment → Prop
  | turn {w : Walk} (hw : l.Clear w) : Sound l (turn w)
  | look {w : Walk} (hw : l.Clear w) : Sound l (look w)
  | counted {w : Walk} (hw : l.Clear w) (hstop : sievePasses l.sieve w.offset = false) :
      Sound l (counted { w with offset := w.offset + 2 })
  | trial {w : Walk} (hw : l.Clear w) (hpass : sievePasses l.sieve w.offset = true) {p : Integer}
      (hp : p.toInt = l.start.toInt + w.offset) (hbits : p.bits = l.bits) :
      Sound l (trial ⟨p, w.offset, w.offset + 2⟩)
  | found {w : Walk} (hw : l.Clear w) (hpass : sievePasses l.sieve w.offset = true) {p : Integer}
      (hp : l.Tested w.offset p true) : Sound l (ended (.ok p))
  | usedUp {w : Walk} (hw : l.Clear w) (hstop : sievePasses l.sieve w.offset = false)
      (hmax : maxStep < w.offset + 2) : Sound l (ended (.error .searchExhausted))
  | outgrown {w : Walk} (hw : l.Clear w) (hpass : sievePasses l.sieve w.offset = true)
      {p : Integer} (hp : p.toInt = l.start.toInt + w.offset) (hbits : p.bits ≠ l.bits) :
      Sound l (ended (.error .searchExhausted))
  | stopped {t : σ} {event : Event} (hstop : (l.observer t event).1 = true) :
      Sound l (ended (.error .cancelled))
  | failed {t : σ} {p : Integer} {e : Error}
      (hfail : ((l.verdict p).run l.observer t).1 = .error e) : Sound l (ended (.error e))

theorem residue_le (start : Integer) : ∀ r ∈ residues start, r.residue ≤ 65536 := by
  have hprimes : ∀ q ∈ smallPrimes, 0 < q ∧ q ≤ 65536 := by decide +kernel
  intro r hr
  rcases List.mem_cons.mp hr with rfl | hr
  · exact Nat.le_of_lt_succ (Nat.mod_lt _ (by decide))
  · obtain ⟨q, hq, rfl⟩ := List.mem_map.mp hr
    obtain ⟨hpos, hle⟩ := hprimes q hq
    rw [Magnitude.modSmall_eq]
    exact (Nat.mod_lt _ hpos).le.trans hle

namespace Loop

variable {σ : Type} {l : Loop σ} {w : Walk}

theorem not_three (l : Loop σ) (offset : ℕ) :
    ¬ (sievePasses l.sieve offset = true ∧ sievePasses l.sieve (offset + 2) = true ∧
      sievePasses l.sieve (offset + 4) = true) :=
  not_three_pass (exists_three_mem_residues l.start) offset

theorem maxStep_even : maxStep % 2 = 0 := by decide

theorem clear_start (l : Loop σ) : l.Clear ⟨l.start, 0, 0⟩ where
  candidate_eq := by rw [Nat.cast_zero, add_zero]
  base_even := rfl
  offset_even := rfl
  base_le := le_rfl
  refused j hj := absurd hj j.not_lt_zero
  passed j hj := absurd hj j.not_lt_zero

namespace Clear

theorem offset_le (hw : l.Clear w) : w.offset ≤ maxStep + 4 := by
  have hmax := maxStep_even
  have heven := hw.offset_even
  by_contra hlt
  exact l.not_three maxStep ⟨hw.passed _ (by omega) (by omega) (by omega),
    hw.passed _ (by omega) (by omega) (by omega), hw.passed _ (by omega) (by omega) (by omega)⟩

/-- After the last allowed offset and the next one the sieve stops the loop. -/
theorem offset_le_of_pass (hw : l.Clear w) (hpass : sievePasses l.sieve w.offset = true) :
    w.offset ≤ maxStep + 2 := by
  have hmax := maxStep_even
  have heven := hw.offset_even
  have hle := hw.offset_le
  by_contra hlt
  have hfour : w.offset = maxStep + 4 := by omega
  rw [hfour] at hpass
  exact l.not_three maxStep
    ⟨hw.passed _ (by omega) hmax le_rfl, hw.passed _ (by omega) (by omega) (by omega), hpass⟩

/-- What is added and taken off at the next step is in range. -/
theorem sums_in_range (hw : l.Clear w) :
    sievePasses? l.sieve w.offset = some (sievePasses l.sieve w.offset) ∧
      sum? w.offset 2 = some (w.offset + 2) ∧
      difference? w.offset w.base = some (w.offset - w.base) := by
  have hoffset := hw.offset_le
  have hmax : maxStep + 4 + 65536 < 2 ^ 32 := by decide
  refine ⟨if_pos fun r hr => ?_, if_pos (by omega), if_pos hw.base_le⟩
  have := residue_le l.start r hr
  omega

theorem toInt_candidate (hw : l.Clear w) :
    (w.candidate + .ofUInt64 (UInt64.ofNat (w.offset - w.base))).toInt =
      l.start.toInt + w.offset := by
  have hoffset := hw.offset_le
  have hfits : w.offset - w.base < 2 ^ 64 := by
    have : maxStep + 4 < 2 ^ 64 := by decide
    omega
  exact toInt_add_distance hw.candidate_eq hw.base_le hfits

/-- An offset that the sieve stops is left behind, where the next one is allowed. -/
theorem skip (hw : l.Clear w) (hstop : sievePasses l.sieve w.offset = false)
    (hmax : w.offset + 2 ≤ maxStep) : l.Clear { w with offset := w.offset + 2 } := by
  have heven := hw.offset_even
  constructor
  case candidate_eq => exact hw.candidate_eq
  case base_even => exact hw.base_even
  case offset_even => exact (Nat.add_mod_right _ _).trans heven
  case base_le => exact hw.base_le.trans (Nat.le_add_right _ _)
  case refused =>
    intro j hj hj2 hpass
    dsimp only at hj
    obtain hlt | rfl : j < w.offset ∨ j = w.offset := by omega
    · exact hw.refused j hlt hj2 hpass
    · rw [hstop] at hpass
      cases hpass
  case passed =>
    intro j hj _ hle
    dsimp only at hj
    omega

/-- A number that is refused is left behind. -/
theorem refuse (hw : l.Clear w) (hpass : sievePasses l.sieve w.offset = true) {p : Integer}
    (hp : l.Tested w.offset p false) : l.Clear ⟨p, w.offset, w.offset + 2⟩ := by
  have heven := hw.offset_even
  have hcases {j : ℕ} (hj : j < w.offset + 2) (hj2 : j % 2 = 0) : j < w.offset ∨ j = w.offset := by
    omega
  constructor
  case candidate_eq => exact hp.value_eq
  case base_even => exact heven
  case offset_even => exact (Nat.add_mod_right _ _).trans heven
  case base_le => exact Nat.le_add_right _ _
  case refused =>
    intro j hj hj2 hpass'
    rcases hcases hj hj2 with hlt | rfl
    · exact hw.refused j hlt hj2 hpass'
    · exact ⟨p, hp⟩
  case passed =>
    intro j hj hj2 hle
    rcases hcases hj hj2 with hlt | rfl
    · exact hw.passed j hlt hj2 hle
    · exact hpass

end Clear

section Steps

variable (s : σ)

theorem next?_turn (l : Loop σ) (w : Walk) :
    l.next? (.turn w) s =
      match l.observer s (.sieve (w.offset / 2)) with
      | (true, t) => some (.ended (.error .cancelled), t)
      | (false, t) => some (.look w, t) := rfl

theorem next?_look_of_stop (hw : l.Clear w) (hstop : sievePasses l.sieve w.offset = false) :
    l.next? (.look w) s = some (.counted { w with offset := w.offset + 2 }, s) := by
  obtain ⟨hsieve, hsum, -⟩ := hw.sums_in_range
  rw [next?, hsieve, hsum, hstop]
  rfl

theorem next?_look_of_pass (hw : l.Clear w) (hpass : sievePasses l.sieve w.offset = true)
    {p : Integer} (hp : w.candidate + .ofUInt64 (UInt64.ofNat (w.offset - w.base)) = p) :
    l.next? (.look w) s =
      some (if p.bits ≠ l.bits then .ended (.error .searchExhausted)
        else .trial ⟨p, w.offset, w.offset + 2⟩, s) := by
  obtain ⟨hsieve, hsum, hdifference⟩ := hw.sums_in_range
  rw [next?, hsieve, hsum, hpass]
  simp only [Option.bind_eq_bind, Option.bind_some, if_true, hdifference, hp]
  split_ifs <;> rfl

theorem next?_counted_of_lt (l : Loop σ) (h : maxStep < w.offset) :
    l.next? (.counted w) s = some (.ended (.error .searchExhausted), s) := if_pos h

theorem next?_counted_of_le (l : Loop σ) (h : w.offset ≤ maxStep) :
    l.next? (.counted w) s = some (.look w, s) := if_neg (not_lt.mpr h)

theorem next?_trial (l : Loop σ) (w : Walk) :
    l.next? (.trial w) s =
      match (l.verdict w.candidate).run l.observer s with
      | (.ok true, t) => some (.ended (.ok w.candidate), (l.observer t .primeFound).2)
      | (.ok false, t) => some (.turn w, t)
      | (.error e, t) => some (.ended (.error e), t) := rfl

end Steps

end Loop

open Loop

section Invariant

variable {σ : Type} {l : Loop σ}

/-- At every moment before its end the loop has a next step, and what is known is kept. -/
theorem Moment.Sound.next {m : Moment} {s : σ} (h : m.Sound l) (hcomes : l.Comes m s) :
    (∃ result, m = ended result) ∨ ∃ m' t, l.next? m s = some (m', t) ∧ m'.Sound l := by
  cases h with
  | @turn w hw =>
    right
    rw [next?_turn]
    cases hstop : l.observer s (.sieve (w.offset / 2)) with
    | mk stop t =>
      cases stop with
      | true => exact ⟨_, _, rfl, .stopped (t := s) (by rw [hstop])⟩
      | false => exact ⟨_, _, rfl, .look hw⟩
  | @look w hw =>
    right
    cases hpass : sievePasses l.sieve w.offset with
    | false => exact ⟨_, _, next?_look_of_stop s hw hpass, .counted hw hpass⟩
    | true =>
      refine ⟨_, _, next?_look_of_pass s hw hpass rfl, ?_⟩
      split_ifs with hbits
      · exact .outgrown hw hpass hw.toInt_candidate hbits
      · exact .trial hw hpass hw.toInt_candidate (not_not.mp hbits)
  | @counted w hw hstop =>
    right
    by_cases hmax : maxStep < w.offset + 2
    · exact ⟨_, _, next?_counted_of_lt s l hmax, .usedUp hw hstop hmax⟩
    · have hle := not_lt.mp hmax
      exact ⟨_, _, next?_counted_of_le s l hle, .look (hw.skip hstop hle)⟩
  | @trial w hw hpass p hp hbits =>
    right
    rw [next?_trial]
    cases hrun : (l.verdict p).run l.observer s with
    | mk result t =>
      have hresult : ((l.verdict p).run l.observer s).1 = result := by rw [hrun]
      dsimp only
      cases result with
      | error e => exact ⟨_, _, rfl, .failed hresult⟩
      | ok accepted =>
        have htested : l.Tested w.offset p accepted := ⟨hp, hbits, s, hcomes, hresult⟩
        cases accepted with
        | true => exact ⟨_, _, rfl, .found hw hpass htested⟩
        | false => exact ⟨_, _, rfl, .turn (hw.refuse hpass htested)⟩
  | found | usedUp | outgrown | stopped | failed => exact .inl ⟨_, rfl⟩

theorem Loop.Comes.sound {m : Moment} {t : σ} (h : l.Comes m t) : m.Sound l := by
  generalize hlast : (m, t) = last at h
  rw [Comes, hlast] at h
  induction h generalizing m t with
  | refl =>
    cases hlast
    exact .turn l.clear_start
  | @tail b c hb hstep ih =>
    cases hlast
    rcases (ih rfl).next hb with ⟨result, hend⟩ | ⟨m', t', hnext, hsound⟩
    · rw [hend] at hstep
      cases hstep
    · cases hnext.symm.trans hstep
      exact hsound

end Invariant

section NextOffset

variable {sieve : List Residue} {count offset : ℕ}

theorem nextOffset_succ_of_pass (hpass : sievePasses sieve offset = true) :
    nextOffset sieve (count + 1) offset = some offset := by
  rw [nextOffset, if_pos hpass]

theorem nextOffset_succ_of_last (hstop : sievePasses sieve offset = false)
    (hmax : maxStep < offset + 2) : nextOffset sieve (count + 1) offset = none := by
  rw [nextOffset, hstop, if_neg Bool.false_ne_true, if_pos hmax]

theorem nextOffset_succ_of_stop (hstop : sievePasses sieve offset = false)
    (hmax : offset + 2 ≤ maxStep) :
    nextOffset sieve (count + 1) offset = nextOffset sieve count (offset + 2) := by
  rw [nextOffset, hstop, if_neg Bool.false_ne_true, if_neg (not_lt.mpr hmax)]

end NextOffset

section WalkRun

variable {σ : Type} {verdict : Integer → Monitored Bool} {observer : Observer σ}
  {sieve : List Residue} {bits count offset : ℕ} {w : Walk} {s t : σ}

theorem run_walk_of_break (hanswer : observer s (.sieve (w.offset / 2)) = (true, t)) :
    (walk verdict sieve bits (count + 1) w).run observer s = (.error .cancelled, t) := by
  rw [walk, Monitored.run_ask, hanswer]
  rfl

theorem run_walk_of_none (hanswer : observer s (.sieve (w.offset / 2)) = (false, t))
    (hnone : nextOffset sieve walkLength w.offset = none) :
    (walk verdict sieve bits (count + 1) w).run observer s = (.error .searchExhausted, t) := by
  rw [walk, Monitored.run_ask, hanswer, hnone]
  rfl

theorem run_walk_of_some (hanswer : observer s (.sieve (w.offset / 2)) = (false, t))
    (hsome : nextOffset sieve walkLength w.offset = some offset) {p : Integer}
    (hp : w.candidate + .ofUInt64 (UInt64.ofNat (offset - w.base)) = p) :
    (walk verdict sieve bits (count + 1) w).run observer s =
      if p.bits ≠ bits then (.error .searchExhausted, t)
      else (verdict p >>= fun accepted =>
        if accepted then .tell .primeFound fun _ => pure p
        else walk verdict sieve bits count ⟨p, offset, offset + 2⟩).run observer t := by
  rw [walk, Monitored.run_ask, hanswer, hsome, if_neg Bool.false_ne_true]
  dsimp only
  rw [hp]
  by_cases hbits : p.bits = bits
  · rw [if_neg (not_not.mpr hbits), hbits, bne_self_eq_false, if_neg Bool.false_ne_true]
  · rw [if_pos hbits, if_pos (bne_iff_ne.mpr hbits)]
    rfl

end WalkRun

section Run

variable {σ : Type} {l : Loop σ}

theorem walkLength_pos : 0 < walkLength := Nat.succ_pos _

theorem maxStep_lt_walkLength (w : Walk) : maxStep < w.offset + 2 * walkLength := by
  rw [walkLength]
  omega

/-- The look for the next offset that the sieve lets through, step by step. -/
theorem Loop.leads_nextOffset {count : ℕ} {w : Walk} (hw : l.Clear w) (hpos : 0 < count)
    (hcount : maxStep < w.offset + 2 * count) (s : σ) :
    match nextOffset l.sieve count w.offset with
    | none => l.Leads (.look w, s) (.ended (.error .searchExhausted), s)
    | some offset => sievePasses l.sieve offset = true ∧ l.Clear { w with offset } ∧
        l.Leads (.look w, s) (.look { w with offset }, s) := by
  induction count generalizing w with
  | zero => exact absurd hpos (lt_irrefl 0)
  | succ count ih =>
    cases hpass : sievePasses l.sieve w.offset with
    | true =>
      rw [nextOffset_succ_of_pass hpass]
      exact ⟨hpass, hw, .refl⟩
    | false =>
      have hlook := next?_look_of_stop s hw hpass
      by_cases hmax : maxStep < w.offset + 2
      · rw [nextOffset_succ_of_last hpass hmax]
        exact .head hlook (.single (next?_counted_of_lt s l hmax))
      · have hle := not_lt.mp hmax
        have hcounted : l.next? (.counted { w with offset := w.offset + 2 }) s = _ :=
          next?_counted_of_le s l hle
        have hrest := ih (hw.skip hpass hle) (by omega) (by dsimp only; omega)
        rw [nextOffset_succ_of_stop hpass hle]
        dsimp only at hrest
        cases hnext : nextOffset l.sieve count (w.offset + 2) with
        | none =>
          rw [hnext] at hrest
          exact .head hlook (.head hcounted hrest)
        | some offset =>
          rw [hnext] at hrest
          obtain ⟨hoffset, hclear, hleads⟩ := hrest
          exact ⟨hoffset, hclear, .head hlook (.head hcounted hleads)⟩

/-- A trial that the loop comes to ends it, or leads to the next turn and what comes of that. -/
theorem Loop.Comes.ends_of_trial {w : Walk} {s : σ} (hcomes : l.Comes (.trial w) s)
    {rest : Monitored Integer}
    (hrest : ∀ t, ((l.verdict w.candidate).run l.observer s) = (.ok false, t) →
      l.Comes (.turn w) t → l.EndsAs (rest.run l.observer t)) :
    l.EndsAs ((l.verdict w.candidate >>= fun accepted =>
      if accepted then .tell .primeFound fun _ => pure w.candidate else rest).run l.observer s) := by
  have hnext := next?_trial s l w
  rw [Monitored.run_bind]
  cases hrun : (l.verdict w.candidate).run l.observer s with
  | mk result t =>
    rw [hrun] at hnext
    cases result with
    | error e => exact hcomes.tail hnext
    | ok accepted =>
      cases accepted with
      | true => exact hcomes.tail hnext
      | false => exact hrest t hrun (hcomes.tail hnext)

/-- From a turn that it comes to, the loop goes on to the end of the walk from there. -/
theorem Loop.Comes.ends_of_turn {count : ℕ} {w : Walk} {s : σ} (hcomes : l.Comes (.turn w) s)
    (hw : l.Clear w) (hlasts : w.Lasts l.sieve count) :
    l.EndsAs ((walk l.verdict l.sieve l.bits count w).run l.observer s) := by
  -- the induction is on the steps granted to the walk, which outlast it
  induction count generalizing w s with
  | zero => exact absurd (hlasts.count_pos (exists_three_mem_residues l.start)) (lt_irrefl 0)
  | succ count ih =>
    have hturn := next?_turn s l w
    cases hanswer : l.observer s (.sieve (w.offset / 2)) with
    | mk stop t =>
      rw [hanswer] at hturn
      cases stop with
      | true =>
        rw [run_walk_of_break hanswer]
        exact hcomes.tail hturn
      | false =>
        have hlook := leads_nextOffset hw walkLength_pos (maxStep_lt_walkLength w) t
        cases hoffset : nextOffset l.sieve walkLength w.offset with
        | none =>
          rw [hoffset] at hlook
          rw [run_walk_of_none hanswer hoffset]
          exact (hcomes.tail hturn).trans hlook
        | some offset =>
          rw [hoffset] at hlook
          obtain ⟨hpass, hclear, hleads⟩ := hlook
          have hp := hclear.toInt_candidate
          have hnext := next?_look_of_pass t hclear hpass rfl
          have hthere := (hcomes.tail hturn).trans hleads
          rw [run_walk_of_some hanswer hoffset rfl]
          dsimp only at hp hnext
          generalize w.candidate + .ofUInt64 (UInt64.ofNat (offset - w.base)) = p at hp hnext ⊢
          by_cases hbits : p.bits = l.bits
          · rw [if_neg (not_not.mpr hbits)] at hnext ⊢
            refine Comes.ends_of_trial (hthere.tail hnext) fun u hrun hagain => ?_
            have htested : l.Tested offset p false :=
              ⟨hp, hbits, t, hthere.tail hnext, by rw [hrun]⟩
            exact ih hagain (hclear.refuse hpass htested)
              (hlasts.next hoffset hclear.offset_even p)
          · rw [if_pos hbits] at hnext ⊢
            exact hthere.tail hnext

/-- The loop comes to what the search ends with. -/
theorem Loop.endsAs_search {seed : Bytes} (hstart : searchStart l.bits seed = .ok l.start) :
    l.EndsAs ((searchWith l.verdict l.bits seed).run l.observer l.before) := by
  have hsearch : searchWith l.verdict l.bits seed =
      walk l.verdict l.sieve l.bits walkLength ⟨l.start, 0, 0⟩ := by
    rw [searchWith, hstart, Monitored.ofExcept_ok_bind, sieve]
  rw [hsearch]
  exact Comes.ends_of_turn .refl l.clear_start (Walk.lasts_start l.start l.sieve)

/-- No moment has two next ones, so that the loop comes to one end. -/
theorem Loop.endsAs_unique {first second : Except Error Integer × σ} (hfirst : l.EndsAs first)
    (hsecond : l.EndsAs second) : first = second := by
  have hunique : Relator.RightUnique fun a b : Moment × σ => l.next? a.1 a.2 = some b :=
    fun _ _ _ hb hc => Option.some.inj (hb.symm.trans hc)
  -- nothing comes behind an end but the end itself
  have hlast {outcome other : Except Error Integer × σ}
      (h : l.Leads (.ended outcome.1, outcome.2) (.ended other.1, other.2)) : outcome = other := by
    rcases h.cases_head with h | ⟨_, hstep, -⟩
    · obtain ⟨hresult, hstate⟩ := Prod.mk.inj h
      exact Prod.ext (Moment.ended.inj hresult) hstate
    · cases hstep
  rcases Relation.ReflTransGen.total_of_right_unique hunique hfirst hsecond with h | h
  · exact hlast h
  · exact (hlast h).symm

/-- The last step before the loop is cancelled is a stop at a turn, or a test that was stopped. -/
theorem Loop.Comes.stop_of_cancelled {u : σ} (h : l.Comes (.ended (.error .cancelled)) u) :
    (∃ w t, l.Comes (.turn w) t ∧ (l.observer t (.sieve (w.offset / 2))).1 = true) ∨
      ∃ w t, l.Comes (.trial w) t ∧
        ((l.verdict w.candidate).run l.observer t).1 = .error .cancelled := by
  rcases Relation.ReflTransGen.cases_tail h with hstart | ⟨⟨m, t⟩, hm, hstep⟩
  · cases hstart
  -- a step that is known to come from a sound moment leads to this end in two cases only
  have hsound := Comes.sound hm
  dsimp only at hstep
  cases hsound with
  | @turn w hw =>
    rw [next?_turn] at hstep
    cases hanswer : l.observer t (.sieve (w.offset / 2)) with
    | mk stop t' =>
      rw [hanswer] at hstep
      cases stop with
      | true => exact .inl ⟨w, t, hm, by rw [hanswer]⟩
      | false => cases hstep
  | @look w hw =>
    cases hpass : sievePasses l.sieve w.offset with
    | false => cases (next?_look_of_stop t hw hpass).symm.trans hstep
    | true =>
      rw [next?_look_of_pass t hw hpass rfl] at hstep
      split_ifs at hstep
      all_goals cases hstep
  | @counted w hw hstop =>
    rw [next?] at hstep
    split_ifs at hstep
    all_goals cases hstep
  | @trial w hw hpass p hp hbits =>
    rw [next?_trial] at hstep
    cases hrun : (l.verdict p).run l.observer t with
    | mk result t' =>
      rw [hrun] at hstep
      cases result with
      | error e =>
        cases hstep
        exact .inr ⟨_, t, hm, by rw [hrun]⟩
      | ok accepted =>
        cases accepted with
        | true => cases hstep
        | false => cases hstep
  | found | usedUp | outgrown | stopped | failed => cases hstep

/-- A stop goes up from the loop: the search is cancelled exactly when the loop comes to a turn that
is answered with a stop, or to a number whose test is stopped. -/
theorem Loop.cancelled_iff {seed : Bytes} (hstart : searchStart l.bits seed = .ok l.start) :
    ((searchWith l.verdict l.bits seed).run l.observer l.before).1 = .error .cancelled ↔
      (∃ w t, l.Comes (.turn w) t ∧ (l.observer t (.sieve (w.offset / 2))).1 = true) ∨
        ∃ w t, l.Comes (.trial w) t ∧
          ((l.verdict w.candidate).run l.observer t).1 = .error .cancelled := by
  have hends := Loop.endsAs_search hstart
  generalize (searchWith l.verdict l.bits seed).run l.observer l.before = outcome at hends ⊢
  constructor
  · intro hcancelled
    rw [EndsAs, hcancelled] at hends
    exact hends.stop_of_cancelled
  · rintro (⟨w, t, hcomes, hstop⟩ | ⟨w, t, hcomes, hstop⟩)
    · have hnext := next?_turn t l w
      cases hanswer : l.observer t (.sieve (w.offset / 2)) with
      | mk stop t' =>
        rw [hanswer] at hnext hstop
        obtain rfl : stop = true := hstop
        have hend : l.EndsAs (.error .cancelled, t') := hcomes.tail hnext
        rw [Loop.endsAs_unique hends hend]
    · have hnext := next?_trial t l w
      cases hrun : (l.verdict w.candidate).run l.observer t with
      | mk result t' =>
        rw [hrun] at hnext hstop
        obtain rfl : result = .error .cancelled := hstop
        have hend : l.EndsAs (.error .cancelled, t') := hcomes.tail hnext
        rw [Loop.endsAs_unique hends hend]

/-- What the loop puts to the test is fit for it. -/
theorem Loop.Comes.fit {w : Walk} {t : σ} (h : l.Comes (.trial w) t) (hbits : 2 ≤ l.bits)
    (hpos : 0 < l.start.toInt) (hodd : l.start.toInt % 2 = 1) :
    w.candidate.toInt % 2 = 1 ∧ 3 ≤ w.candidate.toInt ∧ w.candidate.bits = l.bits := by
  cases Comes.sound h with
  | @trial w hw hpass p hp hsize =>
    have heven := hw.offset_even
    have hwide := (Integer.two_le_bits_iff (show 0 ≤ p.toInt by omega)).mp (by omega)
    exact ⟨by dsimp only; omega, by dsimp only; omega, hsize⟩

end Run

/-- A search is cancelled exactly when its loop comes to a turn that is answered with a stop, or to
a number one of whose rounds is. -/
theorem search_cancelled_iff {bits : ℕ} {seed : Bytes} (hmin : minPrimeBits ≤ bits)
    (hmul : bits % 8 = 0) (hmax : bits ≤ Integer.maxBits) (hlength : bits / 8 ≤ seed.length)
    {σ : Type} (observer : Observer σ) (s : σ) :
    ∃ start, searchStart bits seed = .ok start ∧
      let l : Loop σ := ⟨(test · 0), observer, start, bits, s⟩
      (((search bits seed).run observer s).1 = .error .cancelled ↔
        (∃ w t, l.Comes (.turn w) t ∧ (observer t (.sieve (w.offset / 2))).1 = true) ∨
          ∃ w t, l.Comes (.trial w) t ∧ ∃ i < roundsFor bits,
            (Candidate.of w.candidate).ComesTo
                (.ofSalt w.candidate.magnitude.toWordBytes : Md5Chain) observer t 0 i ∧
              observer.stopsRound t 0 i = true) := by
  obtain ⟨start, hstart, hvalue⟩ := searchStart_eq_ok hmin hmul hmax hlength
  obtain ⟨hpos, hodd⟩ := start_pos_odd hvalue
  refine ⟨start, hstart, ?_⟩
  intro l
  have htest {w : Walk} {t : σ} (h : l.Comes (.trial w) t) :
      ((test w.candidate 0).run observer t).1 = .error .cancelled ↔ ∃ i < roundsFor bits,
        (Candidate.of w.candidate).ComesTo
            (.ofSalt w.candidate.magnitude.toWordBytes : Md5Chain) observer t 0 i ∧
          observer.stopsRound t 0 i = true := by
    obtain ⟨hfit, hlarge, hsize⟩ := h.fit (le_trans (by decide) hmin) hpos hodd
    rw [test, testWith_cancelled_iff _ _ hfit hlarge, hsize]
    rfl
  have hloop := Loop.cancelled_iff (l := l) hstart
  refine hloop.trans (or_congr_right ?_)
  exact exists_congr fun w => exists_congr fun t => and_congr_right htest

/-- The counters of a search, with room for all that is added to them. -/
structure Walk.InRange (w : Walk) (sieve : List Residue) : Prop where
  base_le : w.base ≤ w.offset
  offset_le : w.offset ≤ maxStep + 6
  next_lt : w.offset + 2 < 2 ^ 32
  sum_lt : ∀ r ∈ sieve, r.residue + w.offset < 2 ^ 32

theorem Moment.Sound.inRange {σ : Type} {l : Loop σ} {m : Moment} (h : m.Sound l) {w : Walk}
    (hw : m.walk? = some w) : w.InRange l.sieve := by
  have hmax : maxStep + 6 + 65536 < 2 ^ 32 := by decide
  have hrange (hbase : w.base ≤ w.offset) (hoffset : w.offset ≤ maxStep + 6) :
      w.InRange l.sieve := by
    refine ⟨hbase, hoffset, by omega, fun r hr => ?_⟩
    have := residue_le l.start r hr
    omega
  cases h with
  | turn hv | look hv =>
    obtain rfl := Option.some.inj hw
    exact hrange hv.base_le (hv.offset_le.trans (by omega))
  | counted hv hstop =>
    obtain rfl := Option.some.inj hw
    exact hrange (hv.base_le.trans (Nat.le_add_right _ _)) (Nat.add_le_add_right hv.offset_le 2)
  | trial hv hpass hp hbits =>
    obtain rfl := Option.some.inj hw
    exact hrange (Nat.le_add_right _ _) (Nat.add_le_add_right hv.offset_le 2)
  | found | usedUp | outgrown | stopped | failed => cases hw

/-- The loop of a search ends, whatever the verdicts and the answers of the observer are, and it
ends with the result of the search. On its way the offset goes no further than six beyond the last
allowed one, and no step adds up to more than a word or takes off more than there is: a step is
missing at the end alone. -/
theorem search_stays_in_words {bits : ℕ} {seed : Bytes} (hmin : minPrimeBits ≤ bits)
    (hmul : bits % 8 = 0) (hmax : bits ≤ Integer.maxBits) (hlength : bits / 8 ≤ seed.length)
    {σ : Type} (verdict : Integer → Monitored Bool) (observer : Observer σ) (s : σ) :
    ∃ start, searchStart bits seed = .ok start ∧
      let l : Loop σ := ⟨verdict, observer, start, bits, s⟩
      l.EndsAs ((searchWith verdict bits seed).run observer s) ∧
        ∀ m t, l.Comes m t →
          (∀ w, m.walk? = some w → w.InRange (residues start)) ∧
            (l.next? m t = none ↔ ∃ result, m = .ended result) := by
  obtain ⟨start, hstart, -⟩ := searchStart_eq_ok hmin hmul hmax hlength
  refine ⟨start, hstart, ?_⟩
  intro l
  refine ⟨l.endsAs_search hstart, fun m t hcomes => ⟨fun w => hcomes.sound.inRange, ?_⟩⟩
  constructor
  · intro hnone
    refine (hcomes.sound.next hcomes).resolve_right ?_
    rintro ⟨m', t', hnext, -⟩
    rw [hnone] at hnext
    cases hnext
  · rintro ⟨result, rfl⟩
    rfl

/-- A search that refuses every number goes on until its steps are used up. -/
theorem search_stays_in_words_sample :
    (minPrimeBits ≤ 256 ∧ 256 % 8 = 0 ∧ 256 ≤ Integer.maxBits ∧
        256 / 8 ≤ (Bytes.zeros 32).length) ∧
      ∃ start, searchStart 256 (Bytes.zeros 32) = .ok start ∧
        let l : Loop Unit := ⟨fun _ => pure false, .idle, start, 256, ()⟩
        l.EndsAs (.error .searchExhausted, ()) ∧
          ∀ m t, l.Comes m t → ∀ w, m.walk? = some w → w.InRange (residues start) := by
  have hvalid : minPrimeBits ≤ 256 ∧ 256 % 8 = 0 ∧ 256 ≤ Integer.maxBits ∧
      256 / 8 ≤ (Bytes.zeros 32).length := by decide
  obtain ⟨hmin, hmul, hmax, hlength⟩ := hvalid
  obtain ⟨start, hstart, hends, hrange⟩ :=
    search_stays_in_words hmin hmul hmax hlength (fun _ => pure false) .idle ()
  refine ⟨⟨hmin, hmul, hmax, hlength⟩, start, hstart, ?_, fun m t hcomes => (hrange m t hcomes).1⟩
  generalize (searchWith (fun _ => pure false) 256 (Bytes.zeros 32)).run .idle () = outcome at hends
  obtain ⟨result, ⟨⟩⟩ := outcome
  have hsound := Comes.sound hends
  dsimp only at hsound
  cases hsound with
  | found _ _ hp =>
    obtain ⟨t, -, haccepted⟩ := hp.judged
    cases haccepted
  | usedUp | outgrown => exact hends
  | stopped hstop => cases hstop
  | failed hfail => cases hfail

end Signet.Primality
