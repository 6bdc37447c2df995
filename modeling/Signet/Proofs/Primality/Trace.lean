import Mathlib
import Signet.Proofs.Primality.Search
import Signet.Proofs.Progress

/-! What a prime search tells. Its events come in stretches, one for each time that the walk takes up
the sieve: the step it starts from, and the rounds of the number that it comes to. `Tells` is the
grammar of the events, and `Traced` what follows from it for the events as a whole. Main statement:
`exists_traced_search`. -/
namespace Signet.Primality

/-- A number that the walk came to and put to the test. -/
structure Trial where
  -- how far behind the start of the walk the number lies
  offset : ℕ
  -- how many rounds it went through
  rounds : ℕ

/-- The walk from one look at the sieve to the next. -/
structure Stretch where
  step : ℕ
  -- nothing, where the walk ran out of numbers
  trial : Option Trial

def roundsTold (count : ℕ) : List Event := (List.range count).map .round

def Stretch.events (s : Stretch) : List Event :=
  .sieve s.step :: match s.trial with
    | none => []
    | some t => roundsTold t.rounds

/-- A trial of `p`, to which the walk from `start` came when it took up the sieve at `step`. -/
structure Trial.Judges (t : Trial) (start : Integer) (bits step : ℕ) (p : Integer)
    (accepted : Bool) : Prop where
  value_eq : p.toInt = start.toInt + t.offset
  bits_eq : p.bits = bits
  even : t.offset % 2 = 0
  step_le : 2 * step ≤ t.offset
  events_eq : (test p 0).events = roundsTold t.rounds
  verdict_eq : (test p 0).value = .ok accepted
  rounds_pos : 0 < t.rounds
  rounds_le : t.rounds ≤ roundsFor bits
  rounds_eq : accepted = true → t.rounds = roundsFor bits

/-- The events of a walk that takes up the sieve at some step, and what it ends with. -/
inductive Tells (start : Integer) (bits : ℕ) :
    ℕ → List Stretch → List Event → Except Error Integer → Prop
  | exhausted (step : ℕ) :
      Tells start bits step [⟨step, none⟩] [.sieve step] (.error .searchExhausted)
  | found {step : ℕ} {t : Trial} {p : Integer} (ht : t.Judges start bits step p true) :
      Tells start bits step [⟨step, some t⟩]
        (.sieve step :: (roundsTold t.rounds ++ [.primeFound])) (.ok p)
  | rejected {step : ℕ} {t : Trial} {p : Integer} {stretches : List Stretch}
      {events : List Event} {result : Except Error Integer}
      (ht : t.Judges start bits step p false)
      (hrest : Tells start bits (t.offset / 2 + 1) stretches events result) :
      Tells start bits step (⟨step, some t⟩ :: stretches)
        (.sieve step :: (roundsTold t.rounds ++ events)) result

theorem roundsFor_pos (bits : ℕ) : 0 < roundsFor bits := by
  rw [roundsFor]
  split_ifs <;> decide

/-- A number of the right size that lies an even offset behind the odd start is judged in at least
one round. -/
theorem exists_judges {start p : Integer} {bits step offset : ℕ} (hbits : 1 < bits)
    (hpos : 0 < start.toInt) (hodd : start.toInt % 2 = 1) (heven : offset % 2 = 0)
    (hstep : 2 * step ≤ offset) (hvalue : p.toInt = start.toInt + offset) (hp : p.bits = bits) :
    ∃ rounds accepted, (⟨offset, rounds⟩ : Trial).Judges start bits step p accepted := by
  have hlarge : 3 ≤ p.toInt := by
    have hwide := (Integer.two_le_bits_iff (show 0 ≤ p.toInt by omega)).mp (by omega)
    omega
  obtain ⟨told, hle, accepted, hevents, hverdict, htold, hall⟩ :=
    (Candidate.of p).exists_rounds_told (.ofSalt p.magnitude.toWordBytes : Md5Chain)
      (effectiveRounds 0 p.bits) 0
  have htest := testWith_of_fit Md5.digest 0 (p := p) (by omega) hlarge
  have hrounds : effectiveRounds 0 p.bits = roundsFor bits := by
    rw [effectiveRounds, if_pos (by decide), hp]
  rw [hrounds] at hle htold hall
  refine ⟨told, accepted, hvalue, hp, heven, hstep, ?_, ?_, htold (roundsFor_pos bits), hle, hall⟩
  · rw [test, htest, hevents, roundsTold, List.range_eq_range']
  · rw [test, htest, hverdict]

theorem walk_events_succ {verdict : Integer → Monitored Bool} {sieve : List Residue}
    {bits count : ℕ} (w : Walk) :
    (walk verdict sieve bits (count + 1) w).events =
      .sieve (w.offset / 2) ::
        match nextOffset sieve walkLength w.offset with
        | none => []
        | some offset =>
          let candidate := w.candidate + .ofUInt64 (UInt64.ofNat (offset - w.base))
          if candidate.bits != bits then []
          else (verdict candidate).events ++
            match (verdict candidate).value with
            | .ok true => [.primeFound]
            | .ok false => (walk verdict sieve bits count
                { candidate, base := offset, offset := offset + 2 }).events
            | .error _ => [] := by
  rw [walk, Monitored.events]
  congr 1
  cases nextOffset sieve walkLength w.offset with
  | none => rfl
  | some offset =>
    dsimp only
    split
    · rfl
    · refine (Monitored.events_andThen _ _).trans ?_
      congr 1
      rcases (verdict _).value with _ | (_ | _) <;> rfl

/-- Of three offsets in a row the sieve stops one at the modulus three. -/
theorem not_three_pass {sieve : List Residue} (hthree : ∃ r ∈ sieve, r.modulus = 3) (offset : ℕ) :
    ¬ (sievePasses sieve offset = true ∧ sievePasses sieve (offset + 2) = true ∧
      sievePasses sieve (offset + 4) = true) := by
  obtain ⟨r, hr, hmodulus⟩ := hthree
  rintro ⟨h0, h2, h4⟩
  have hpass (j : ℕ) (h : sievePasses sieve j = true) : (r.residue + j) % 3 ≠ 0 := by
    have := List.all_eq_true.mp h r hr
    rwa [hmodulus, bne_iff_ne] at this
  have := hpass _ h0
  have := hpass _ h2
  have := hpass _ h4
  omega

/-- Where a walk may stand that can still take up the sieve `count` times. -/
structure Walk.Lasts (w : Walk) (sieve : List Residue) (count : ℕ) : Prop where
  -- the last allowed offset is only left behind by numbers that the sieve lets through
  passed : ∀ j, maxStep ≤ j → j < w.offset → j % 2 = 0 → sievePasses sieve j = true
  enough : maxStep + 4 < w.offset + 2 * count

theorem Walk.lasts_start (start : Integer) (sieve : List Residue) :
    Walk.Lasts ⟨start, 0, 0⟩ sieve walkLength where
  passed _ _ hlt _ := absurd hlt (Nat.not_lt_zero _)
  enough := by
    change maxStep + 4 < 0 + 2 * walkLength
    decide

theorem Walk.Lasts.count_pos {w : Walk} {sieve : List Residue} {count : ℕ}
    (h : w.Lasts sieve count) (hthree : ∃ r ∈ sieve, r.modulus = 3) : 0 < count := by
  by_contra hzero
  have henough := h.enough
  have heven : maxStep % 2 = 0 := by decide
  exact not_three_pass hthree maxStep
    ⟨h.passed _ (by omega) (by omega) (by omega), h.passed _ (by omega) (by omega) (by omega),
      h.passed _ (by omega) (by omega) (by omega)⟩

theorem Walk.Lasts.next {w : Walk} {sieve : List Residue} {count offset : ℕ}
    (h : w.Lasts sieve (count + 1)) (hoffset : nextOffset sieve walkLength w.offset = some offset)
    (heven : offset % 2 = 0) (candidate : Integer) :
    Walk.Lasts ⟨candidate, offset, offset + 2⟩ sieve count := by
  obtain ⟨hpass, hle, -, hbound⟩ := nextOffset_eq_some hoffset
  have henough := h.enough
  -- beyond the last allowed offset nothing is passed over: the number found there is the first
  -- that was looked at
  constructor
  case passed =>
    intro j hmax hlt hj2
    dsimp only at hlt
    have hmaxEven : maxStep % 2 = 0 := by decide
    by_cases hj : j < w.offset
    · exact h.passed j hmax hj hj2
    · obtain rfl | hne := eq_or_ne j offset
      · exact hpass
      · omega
  case enough =>
    dsimp only
    omega

/-- A walk of the search tells of every stretch, and never ends for want of steps granted to it. -/
theorem exists_tells_walk {start : Integer} {sieve : List Residue} {bits count : ℕ} {w : Walk}
    (hbits : 1 < bits) (hpos : 0 < start.toInt) (hodd : start.toInt % 2 = 1)
    (hthree : ∃ r ∈ sieve, r.modulus = 3) (hw : w.From start) (hlasts : w.Lasts sieve count) :
    ∃ stretches, Tells start bits (w.offset / 2) stretches
      (walk (fun p => test p 0) sieve bits count w).events
      (walk (fun p => test p 0) sieve bits count w).value := by
  -- the steps that are granted never run out before the walk does
  induction count generalizing w with
  | zero => exact absurd (hlasts.count_pos hthree) (lt_irrefl 0)
  | succ count ih =>
    rw [walk_events_succ, walk_value_succ]
    cases hoffset : nextOffset sieve walkLength w.offset with
    | none => exact ⟨_, .exhausted _⟩
    | some offset =>
      -- the candidate lies at the offset that the sieve came to, however far the last one was
      obtain ⟨hvalue, heven⟩ := hw.next hoffset
      obtain ⟨-, hle, -, -⟩ := nextOffset_eq_some hoffset
      dsimp only
      generalize w.candidate + .ofUInt64 (UInt64.ofNat (offset - w.base)) = candidate at hvalue ⊢
      split
      · exact ⟨_, .exhausted _⟩
      · next hsize =>
        obtain ⟨rounds, accepted, hjudges⟩ : ∃ rounds accepted,
            (⟨offset, rounds⟩ : Trial).Judges start bits (w.offset / 2) candidate accepted :=
          exists_judges hbits hpos hodd heven (by omega) hvalue (by simpa using hsize)
        rw [hjudges.events_eq, hjudges.verdict_eq]
        cases accepted with
        | true => exact ⟨_, .found hjudges⟩
        | false =>
          have hfrom : Walk.From start ⟨candidate, offset, offset + 2⟩ :=
            ⟨hvalue, heven, by change (offset + 2) % 2 = 0; omega, by simp, le_rfl⟩
          obtain ⟨stretches, hrest⟩ := ih hfrom (hlasts.next hoffset heven candidate)
          rw [show (offset + 2) / 2 = offset / 2 + 1 by omega] at hrest
          exact ⟨_, .rejected hjudges hrest⟩

section Grammar

variable {start : Integer} {bits first : ℕ} {stretches : List Stretch} {events : List Event}
  {result : Except Error Integer}

theorem Tells.first_step (h : Tells start bits first stretches events result) :
    stretches.head?.map Stretch.step = some first := by
  cases h <;> rfl

/-- Only the last stretch may be without a trial, and every other one says where the next begins. -/
theorem Tells.next_step (h : Tells start bits first stretches events result) :
    stretches.IsChain fun s next => ∃ t, s.trial = some t ∧ next.step = t.offset / 2 + 1 := by
  induction h with
  | exhausted step => exact .singleton _
  | found ht => exact .singleton _
  | rejected ht hrest ih =>
    refine List.isChain_cons.mpr ⟨fun next hnext => ⟨_, rfl, ?_⟩, ih⟩
    have hfirst := hrest.first_step
    rw [Option.mem_def.mp hnext] at hfirst
    exact Option.some.inj hfirst

theorem Tells.first_le (h : Tells start bits first stretches events result) :
    ∀ s ∈ stretches, first ≤ s.step := by
  induction h with
  | exhausted step => simp
  | found ht => simp
  | rejected ht _ ih =>
    have hstep := ht.step_le
    intro s hs
    rcases List.mem_cons.mp hs with rfl | hs
    · exact le_rfl
    · have := ih s hs
      omega

theorem Tells.steps_increase (h : Tells start bits first stretches events result) :
    stretches.Pairwise fun s later => s.step < later.step := by
  induction h with
  | exhausted step => exact List.pairwise_singleton _ _
  | found ht => exact List.pairwise_singleton _ _
  | rejected ht hrest ih =>
    have hstep := ht.step_le
    refine List.pairwise_cons.mpr ⟨fun later hlater => ?_, ih⟩
    have := hrest.first_le later hlater
    dsimp only
    omega

theorem Tells.trials (h : Tells start bits first stretches events result) :
    ∀ s ∈ stretches, ∀ t, s.trial = some t →
      ∃ p accepted, t.Judges start bits s.step p accepted := by
  induction h with
  | exhausted step =>
    rintro s hs t ht
    rw [List.mem_singleton.mp hs] at ht
    cases ht
  | found ht =>
    rintro s hs _ htrial
    obtain rfl := List.mem_singleton.mp hs
    obtain rfl := Option.some.inj htrial
    exact ⟨_, _, ht⟩
  | rejected ht _ ih =>
    rintro s hs _ htrial
    rcases List.mem_cons.mp hs with rfl | hs
    · obtain rfl := Option.some.inj htrial
      exact ⟨_, _, ht⟩
    · exact ih s hs _ htrial

/-- What the search ends with, beside its last stretch and the events of all of them. -/
theorem Tells.ending (h : Tells start bits first stretches events result) :
    ∃ last ∈ stretches.getLast?,
      (last.trial = none ∧ result = .error .searchExhausted ∧
        events = stretches.flatMap Stretch.events) ∨
      ∃ t p, last.trial = some t ∧ t.Judges start bits last.step p true ∧ result = .ok p ∧
        events = stretches.flatMap Stretch.events ++ [.primeFound] := by
  induction h with
  | exhausted step => exact ⟨_, rfl, .inl ⟨rfl, rfl, rfl⟩⟩
  | @found step t p ht =>
    refine ⟨_, rfl, .inr ⟨t, p, rfl, ht, rfl, ?_⟩⟩
    rw [List.flatMap_singleton, Stretch.events, List.cons_append]
  | rejected ht _ ih =>
    obtain ⟨last, hlast, hend⟩ := ih
    refine ⟨last, ?_, ?_⟩
    · rw [List.getLast?_cons, Option.mem_def.mp hlast]
      rfl
    · rcases hend with ⟨hnone, hresult, rfl⟩ | ⟨t, p, hsome, hjudges, hresult, rfl⟩
      · exact .inl ⟨hnone, hresult, rfl⟩
      · refine .inr ⟨t, p, hsome, hjudges, hresult, ?_⟩
        rw [List.flatMap_cons, Stretch.events, List.cons_append, List.cons_append, List.append_assoc]

end Grammar

/-- What the events of a search are, stretch by stretch, and how they go with its result. -/
structure Traced (start : Integer) (bits : ℕ) (stretches : List Stretch) (events : List Event)
    (result : Except Error Integer) : Prop where
  first_step : stretches.head?.map Stretch.step = some 0
  next_step : stretches.IsChain fun s next => ∃ t, s.trial = some t ∧ next.step = t.offset / 2 + 1
  steps_increase : stretches.Pairwise fun s later => s.step < later.step
  trials : ∀ s ∈ stretches, ∀ t, s.trial = some t →
    ∃ p accepted, t.Judges start bits s.step p accepted
  ends : result = .error .searchExhausted ∨ ∃ p, result = .ok p
  exhausted_iff : result = .error .searchExhausted ↔ ∃ last ∈ stretches.getLast?, last.trial = none
  events_of_exhausted : result = .error .searchExhausted →
    events = stretches.flatMap Stretch.events
  ok_iff : (∃ p, result = .ok p) ↔
    (∃ last ∈ stretches.getLast?, ∃ t, last.trial = some t ∧ t.rounds = roundsFor bits) ∧
      events = stretches.flatMap Stretch.events ++ [.primeFound]
  judges_of_ok : ∀ p, result = .ok p → ∃ last ∈ stretches.getLast?, ∃ t,
    last.trial = some t ∧ t.Judges start bits last.step p true

theorem Tells.traced {start : Integer} {bits : ℕ} {stretches : List Stretch} {events : List Event}
    {result : Except Error Integer} (h : Tells start bits 0 stretches events result) :
    Traced start bits stretches events result := by
  obtain ⟨last, hlast, hend⟩ := h.ending
  have hunique {s : Stretch} (hs : s ∈ stretches.getLast?) : s = last := Option.mem_unique hs hlast
  rcases hend with ⟨hnone, rfl, rfl⟩ | ⟨t, p, hsome, hjudges, rfl, rfl⟩
  · refine ⟨h.first_step, h.next_step, h.steps_increase, h.trials, .inl rfl,
      iff_of_true rfl ⟨last, hlast, hnone⟩, fun _ => rfl, iff_of_false nofun ?_, nofun⟩
    rintro ⟨⟨s, hs, t, ht, -⟩, -⟩
    rw [hunique hs, hnone] at ht
    cases ht
  · refine ⟨h.first_step, h.next_step, h.steps_increase, h.trials, .inr ⟨p, rfl⟩,
      iff_of_false nofun ?_, nofun,
      iff_of_true ⟨p, rfl⟩ ⟨⟨last, hlast, t, hsome, hjudges.rounds_eq rfl⟩, rfl⟩, ?_⟩
    · rintro ⟨s, hs, hnone⟩
      rw [hunique hs, hsome] at hnone
      cases hnone
    · rintro _ ⟨⟩
      exact ⟨last, hlast, t, hsome, hjudges⟩

theorem exists_three_mem_residues (start : Integer) : ∃ r ∈ residues start, r.modulus = 3 :=
  ⟨_, List.mem_cons_of_mem _ (List.mem_cons_self ..), rfl⟩

/-- A search tells of itself from the start that its seed leads to. -/
theorem exists_traced_search {bits : ℕ} (seed : Bytes) (hmin : minPrimeBits ≤ bits)
    (hmul : bits % 8 = 0) (hmax : bits ≤ Integer.maxBits) (hlength : bits / 8 ≤ seed.length) :
    ∃ start stretches, searchStart bits seed = .ok start ∧
      start.toInt =
        ((Bytes.ofBigEndian (seed.take (bits / 8)) ||| 2 ^ (bits - 1)) ||| 2 ^ 0 : ℕ) ∧
      Traced start bits stretches (search bits seed).events (search bits seed).value := by
  obtain ⟨start, hstart, hvalue⟩ := searchStart_eq_ok hmin hmul hmax hlength
  obtain ⟨hpos, hodd⟩ := start_pos_odd hvalue
  have hbits : 1 < bits := lt_of_lt_of_le (by decide) hmin
  have hsearch : search bits seed =
      walk (fun p => test p 0) (residues start) bits walkLength ⟨start, 0, 0⟩ := by
    rw [search, searchWith, hstart]
    rfl
  obtain ⟨stretches, htells⟩ := exists_tells_walk hbits hpos hodd (exists_three_mem_residues start)
    (Walk.from_start start) (Walk.lasts_start start (residues start))
  rw [← hsearch, Nat.zero_div] at htells
  exact ⟨start, stretches, hstart, hvalue, htells.traced⟩

end Signet.Primality
