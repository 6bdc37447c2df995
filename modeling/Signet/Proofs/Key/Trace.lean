import Mathlib
import Signet.Proofs.Key.Generation
import Signet.Proofs.Primality.Trace

/-! What the making of a key pair tells: all that the two searches tell, and then that the trial run
begins and that it went well. Main statement: `searches_traced`. -/
namespace Signet

open Monitored

theorem Monitored.events_bind {α β : Type} (m : Monitored α) (f : α → Monitored β) :
    (m >>= f).events = m.events ++ (match m.value with
      | .ok a => (f a).events
      | .error _ => []) := events_andThen m f

/-- The trial run of a key ends with a result exactly when it tells that it went well. -/
theorem PrivateKey.selfTest_told (k : PrivateKey) (seed : Bytes) :
    (k.selfTest seed).value = .ok () ∧
        (k.selfTest seed).events = [.selfTestBegin, .selfTestEnd] ∨
      ∃ e, (k.selfTest seed).value = .error e ∧ (k.selfTest seed).events = [.selfTestBegin] := by
  rw [selfTest, value, events]
  cases Integer.load seed selfTestBits with
  | error e => exact .inr ⟨e, rfl, rfl⟩
  | ok x =>
    simp only [ofExcept_ok_bind]
    cases k.toPublic.apply x with
    | error e => exact .inr ⟨e, rfl, rfl⟩
    | ok c =>
      simp only [ofExcept_ok_bind]
      split
      · exact .inl ⟨rfl, rfl⟩
      · exact .inr ⟨.malformed, rfl, rfl⟩

namespace KeyRequest

theorem fromPrimes_told (r : KeyRequest) (seed : Bytes) (a b : Integer) :
    (∃ pair, (r.fromPrimes seed a b).value = .ok pair ∧
        (r.fromPrimes seed a b).events = [.selfTestBegin, .selfTestEnd]) ∨
      (∃ e, (r.fromPrimes seed a b).value = .error e) ∧
        .selfTestEnd ∉ (r.fromPrimes seed a b).events := by
  rw [fromPrimes]
  split
  · exact .inr ⟨⟨_, rfl⟩, List.not_mem_nil⟩
  dsimp only
  cases PrivateKey.ofPrimes r.header _ _ with
  | error e => exact .inr ⟨⟨e, rfl⟩, List.not_mem_nil⟩
  | ok key =>
    rw [ofExcept_ok_bind, value_bind, events_bind]
    rcases key.selfTest_told seed with ⟨hvalue, hevents⟩ | ⟨e, hvalue, hevents⟩
    · rw [hvalue, hevents]
      exact .inl ⟨(key.toPublic, key), rfl, rfl⟩
    · rw [hvalue, hevents]
      exact .inr ⟨⟨e, rfl⟩, by simp⟩

end KeyRequest

/-- No stretch of a search tells of a trial run. -/
theorem Primality.Traced.not_told_selfTestEnd {start : Integer} {bits : ℕ}
    {stretches : List Stretch} {events : List Event} {result : Except Error Integer}
    (h : Traced start bits stretches events result) : .selfTestEnd ∉ events := by
  have hstretches : Event.selfTestEnd ∉ stretches.flatMap Stretch.events := by
    intro hmem
    obtain ⟨s, -, hs⟩ := List.mem_flatMap.mp hmem
    rw [Stretch.events] at hs
    cases htrial : s.trial with
    | none => simp [htrial] at hs
    | some t => simp [htrial, roundsTold] at hs
  rcases h.ends with hend | hend
  · rw [h.events_of_exhausted hend]
    exact hstretches
  · rw [(h.ok_iff.mp hend).2]
    simpa using hstretches

namespace KeyRequest

theorem generate_told (r : KeyRequest) (seed : Bytes) :
    ((∃ pair, (r.generate seed).value = .ok pair) ∧ (r.generate seed).events =
        (Primality.search (r.bits / 2) (seed.take (r.bits / 16))).events ++
          (Primality.search (r.bits / 2) (seed.drop (r.bits / 16))).events ++
          [.selfTestBegin, .selfTestEnd]) ∨
      (∃ e, (r.generate seed).value = .error e) ∧ .selfTestEnd ∉ (r.generate seed).events := by
  rw [generate]
  split
  · exact .inr ⟨⟨_, rfl⟩, List.not_mem_nil⟩
  next hseed =>
  obtain ⟨hmin, hmul, hmax, hhalf⟩ := r.half_valid
  rw [seedLength] at hseed
  obtain ⟨_, _, -, -, hfirst⟩ := Primality.exists_traced_search (seed.take (r.bits / 16))
    hmin hmul hmax (by rw [List.length_take]; omega)
  obtain ⟨_, _, -, -, hsecond⟩ := Primality.exists_traced_search (seed.drop (r.bits / 16))
    hmin hmul hmax (by rw [List.length_drop]; omega)
  -- only the trial run can tell that it went well, so an early end leaves that untold
  have hfirst := hfirst.not_told_selfTestEnd
  have hsecond := hsecond.not_told_selfTestEnd
  dsimp only
  rw [value_bind, events_bind]
  generalize Primality.search _ (seed.take _) = first at hfirst ⊢
  generalize Primality.search _ (seed.drop _) = second at hsecond ⊢
  cases hvalue : first.value with
  | error e => exact .inr ⟨⟨e, rfl⟩, by simpa using hfirst⟩
  | ok a =>
    rw [ok_bind, value_bind]
    dsimp only
    rw [events_bind]
    cases hvalue : second.value with
    | error e => exact .inr ⟨⟨e, rfl⟩, by simp [hfirst, hsecond]⟩
    | ok b =>
      rw [ok_bind]
      rcases r.fromPrimes_told seed a b with ⟨pair, hpair, hevents⟩ | ⟨⟨e, he⟩, hevents⟩
      · refine .inl ⟨⟨pair, hpair⟩, ?_⟩
        dsimp only
        rw [hevents, List.append_assoc]
      · exact .inr ⟨⟨e, he⟩, by simp [hfirst, hsecond, hevents]⟩

end KeyRequest

/-- A search tells of its walk stretch by stretch. The making of a key pair tells what both searches
tell and then of the trial run, and that this went well exactly when there is a pair. -/
theorem searches_traced {σ : Type} {observer : Observer σ}
    (hsilent : ∀ s event, (observer s event).1 = false) (s : σ) :
    (∀ (bits : ℕ) (seed : Bytes), Primality.minPrimeBits ≤ bits → bits % 8 = 0 →
      bits ≤ Integer.maxBits → bits / 8 ≤ seed.length →
        ∃ start stretches, Primality.searchStart bits seed = .ok start ∧
          start.toInt =
            ((Bytes.ofBigEndian (seed.take (bits / 8)) ||| 2 ^ (bits - 1)) ||| 2 ^ 0 : ℕ) ∧
          Primality.Traced start bits stretches ((Primality.search bits seed).heard observer s)
            ((Primality.search bits seed).run observer s).1) ∧
      ∀ (r : KeyRequest) (seed : Bytes),
        let first := Primality.search (r.bits / 2) (seed.take (r.bits / 16))
        let second := Primality.search (r.bits / 2) (seed.drop (r.bits / 16))
        ((∃ pair, ((r.generate seed).run observer s).1 = .ok pair) →
          (r.generate seed).heard observer s =
            first.heard observer s ++ second.heard observer (first.run observer s).2 ++
              [.selfTestBegin, .selfTestEnd]) ∧
        (.selfTestEnd ∈ (r.generate seed).heard observer s ↔
          ∃ pair, ((r.generate seed).run observer s).1 = .ok pair) := by
  refine ⟨fun bits seed hmin hmul hmax hlength => ?_, fun r seed => ?_⟩
  · rw [heard_eq_events observer s hsilent, run_fst_eq_value hsilent]
    exact Primality.exists_traced_search seed hmin hmul hmax hlength
  · dsimp only
    rw [heard_eq_events observer s hsilent, heard_eq_events observer s hsilent,
      heard_eq_events observer _ hsilent, run_fst_eq_value hsilent]
    rcases r.generate_told seed with ⟨hpair, hevents⟩ | ⟨⟨e, he⟩, hevents⟩
    · exact ⟨fun _ => hevents, iff_of_true (by simp [hevents]) hpair⟩
    · have hnone : ¬ ∃ pair, (r.generate seed).value = .ok pair := by
        rintro ⟨pair, hpair⟩
        rw [he] at hpair
        cases hpair
      exact ⟨fun hpair => absurd hpair hnone, iff_of_false hevents hnone⟩

open KeyRequest in
/-- A search that ends at the number it starts from, and a pair that is made. -/
theorem searches_traced_sample :
    (∃ start stretches, Primality.searchStart 256 (sampleSeed.take 32) = .ok start ∧
      Primality.Traced start 256 stretches
        ((Primality.search 256 (sampleSeed.take 32)).heard .idle ())
        (.ok (.ofBytes (sampleSeed.take 32)))) ∧
      .selfTestEnd ∈ (sample.generate sampleSeed).heard .idle () := by
  obtain ⟨hsearch, hgenerate⟩ := searches_traced Observer.idle_silent ()
  constructor
  · obtain ⟨start, stretches, hstart, -, htraced⟩ := hsearch 256 (sampleSeed.take 32) (by decide)
      (by decide) (by decide) (by decide)
    rw [run_fst_eq_value Observer.idle_silent, sample_first.1] at htraced
    exact ⟨start, stretches, hstart, htraced⟩
  · obtain ⟨priv, hrun, -, -⟩ := exists_sample_pair
    refine (hgenerate sample sampleSeed).2.mpr ⟨(priv.toPublic, priv), ?_⟩
    rw [run_fst_eq_value Observer.idle_silent]
    exact value_of_run_eq_ok hrun

end Signet
