import Mathlib
import Signet.Proofs.Key.Generation
import Signet.Proofs.Primality.Verdict

/-! Stopping the search for a prime, and the making of a key pair. No step on the way fails as if it
was stopped, and a stop goes all the way up: the trial run, the making of a key from two numbers and
that of a pair from a seed each have an equation that hands the observer on from one part to the
next, and a part that is cancelled cancels the whole. Main statements: `generate_cancelled_iff` and
`observers_only_cancel`. -/
namespace Signet

theorem error_ne_cancelled {α : Type} {e : Error} (h : e ≠ .cancelled) :
    (.error e : Except Error α) ≠ .error .cancelled :=
  fun he => h (Except.error.inj he)

theorem ok_ne_cancelled {α : Type} (a : α) : (.ok a : Except Error α) ≠ .error .cancelled := by
  intro h
  cases h

theorem require_ne_cancelled {condition : Bool} {e : Error} (h : e ≠ .cancelled) :
    require condition e ≠ .error .cancelled :=
  fun hrequire => h (require_eq_error_iff.mp hrequire).2

theorem bind_ne_cancelled {α β : Type} {x : Except Error α} {f : α → Except Error β}
    (hx : x ≠ .error .cancelled) (hf : ∀ a, f a ≠ .error .cancelled) :
    (x >>= f) ≠ .error .cancelled := by
  intro h
  rcases bind_eq_error_iff.mp h with h | ⟨a, -, h⟩
  · exact hx h
  · exact hf a h

namespace Integer

theorem load_ne_cancelled (bytes : Bytes) (width : ℕ) : load bytes width ≠ .error .cancelled := by
  rw [load]
  split_ifs <;> simp

theorem setBit_ne_cancelled (x : Integer) (place : ℕ) (value : Bool) :
    x.setBit place value ≠ .error .cancelled := by
  rw [setBit]
  split_ifs <;> simp

theorem invertDown_ne_cancelled (modulus : Integer) (steps : ℕ) (big little s t : Integer) :
    invertDown modulus steps big little s t ≠ .error .cancelled := by
  induction steps generalizing big little s t with
  | zero => exact error_ne_cancelled (by decide)
  | succ steps ih =>
    rw [invertDown]
    dsimp only
    split_ifs
    · exact ok_ne_cancelled t
    · exact error_ne_cancelled (by decide)
    · exact ih _ _ _ _

theorem modInverse_ne_cancelled (x modulus : Integer) :
    x.modInverse modulus ≠ .error .cancelled := by
  rw [modInverse]
  split_ifs
  · exact error_ne_cancelled (by decide)
  · exact invertDown_ne_cancelled _ _ _ _ _ _

end Integer

theorem PublicKey.apply_ne_cancelled (k : PublicKey) (m : Integer) :
    k.apply m ≠ .error .cancelled := by
  rw [apply, checkOperand]
  refine bind_ne_cancelled (bind_ne_cancelled ?_ fun _ => ?_) fun _ => ok_ne_cancelled _
  · exact require_ne_cancelled (by decide)
  · exact require_ne_cancelled (by decide)

theorem PrivateKey.ofPrimes_ne_cancelled (header : KeyHeader) (p q : Integer) :
    ofPrimes header p q ≠ .error .cancelled := by
  rw [ofPrimes]
  refine bind_ne_cancelled (Integer.modInverse_ne_cancelled _ _) fun _ => ?_
  refine bind_ne_cancelled (Integer.setBit_ne_cancelled _ _ _) fun _ => ?_
  refine bind_ne_cancelled (Integer.setBit_ne_cancelled _ _ _) fun _ => ?_
  refine bind_ne_cancelled (Integer.modInverse_ne_cancelled _ _) fun _ => ?_
  refine bind_ne_cancelled (Integer.setBit_ne_cancelled _ _ _) fun _ => ?_
  exact bind_ne_cancelled (Integer.setBit_ne_cancelled _ _ _) fun _ => ok_ne_cancelled _

open Monitored

namespace Primality

theorem proper_walk {verdict : Integer → Monitored Bool} (hverdict : ∀ p, (verdict p).Proper)
    (sieve : List Residue) (bits count : ℕ) (w : Walk) :
    (walk verdict sieve bits count w).Proper := by
  induction count generalizing w with
  | zero => exact .done (error_ne_cancelled (by decide))
  | succ count ih =>
    rw [walk]
    refine .ask rfl fun _ => ?_
    split
    · exact .done (error_ne_cancelled (by decide))
    · dsimp only
      split_ifs
      · exact .done (error_ne_cancelled (by decide))
      · refine (hverdict _).bind fun accepted => ?_
        -- a prime is announced when the walk is over, so that no answer is asked for
        cases accepted with
        | false => exact ih _
        | true => exact .tell rfl fun _ => .pure _

theorem searchStart_ne_cancelled (bits : ℕ) (seed : Bytes) :
    searchStart bits seed ≠ .error .cancelled := by
  have hload : (do
      let start ← Integer.load (seed.take (bits / 8)) bits
      let start ← start.setBit (bits - 1) true
      start.setBit 0 true) ≠ .error .cancelled := by
    refine bind_ne_cancelled (Integer.load_ne_cancelled _ _) fun _ => ?_
    exact bind_ne_cancelled (Integer.setBit_ne_cancelled _ _ _) fun _ =>
      Integer.setBit_ne_cancelled _ _ _
  rw [searchStart]
  split_ifs
  · exact bind_ne_cancelled (error_ne_cancelled (by decide)) fun _ => hload
  · exact hload

theorem proper_search (bits : ℕ) (seed : Bytes) : (search bits seed).Proper :=
  .bind (.done (searchStart_ne_cancelled _ _)) fun _ => proper_walk (proper_test · 0) ..

end Primality

theorem PrivateKey.proper_selfTest (k : PrivateKey) (seed : Bytes) : (k.selfTest seed).Proper := by
  rw [selfTest]
  refine .ask rfl fun _ => ?_
  refine .bind (.done (Integer.load_ne_cancelled _ _)) fun _ => ?_
  refine .bind (.done (PublicKey.apply_ne_cancelled _ _)) fun _ => ?_
  split_ifs
  · exact .tell rfl fun _ => .pure ()
  · exact .done (error_ne_cancelled (by decide))

namespace KeyRequest

theorem proper_fromPrimes (r : KeyRequest) (seed : Bytes) (a b : Integer) :
    (r.fromPrimes seed a b).Proper := by
  rw [fromPrimes]
  split_ifs
  · exact .done (error_ne_cancelled (by decide))
  all_goals
    refine .bind (.done (PrivateKey.ofPrimes_ne_cancelled _ _ _)) fun key => ?_
    exact (key.proper_selfTest seed).bind fun _ => .pure _

theorem proper_generate (r : KeyRequest) (seed : Bytes) : (r.generate seed).Proper := by
  rw [generate]
  split_ifs
  · exact .done (error_ne_cancelled (by decide))
  · refine (Primality.proper_search ..).bind fun a => ?_
    exact (Primality.proper_search ..).bind fun b => r.proper_fromPrimes seed a b

end KeyRequest

section Run

variable {σ : Type} {observer : Observer σ} {s t u : σ} {seed : Bytes}

namespace PrivateKey

variable {k : PrivateKey}

theorem run_selfTest_of_break (hanswer : observer s .selfTestBegin = (true, t)) :
    (k.selfTest seed).run observer s = (.error .cancelled, t) := by
  rw [selfTest, run_ask, hanswer]
  rfl

/-- A trial run that is let through tells that it went well, if it did. -/
theorem run_selfTest_of_go (hanswer : observer s .selfTestBegin = (false, t)) :
    (k.selfTest seed).run observer s =
      match (k.selfTest seed).value with
      | .ok u => (.ok u, (observer t .selfTestEnd).2)
      | .error e => (.error e, t) := by
  rw [selfTest, run_ask, hanswer, if_neg Bool.false_ne_true, value]
  cases Integer.load seed selfTestBits with
  | error e => rfl
  | ok x =>
    simp only [ofExcept_ok_bind]
    cases k.toPublic.apply x with
    | error e => rfl
    | ok c =>
      simp only [ofExcept_ok_bind]
      split
      · rfl
      · rfl

theorem run_selfTest_of_triedOut (hanswer : observer s .selfTestBegin = (false, t))
    (htried : k.TriedOut seed) :
    (k.selfTest seed).run observer s = (.ok (), (observer t .selfTestEnd).2) := by
  rw [run_selfTest_of_go hanswer, selfTest_value_eq_ok_iff.mpr htried]

theorem run_selfTest_of_refused (hanswer : observer s .selfTestBegin = (false, t)) {e : Error}
    (hrefused : (k.selfTest seed).value = .error e) :
    (k.selfTest seed).run observer s = (.error e, t) := by
  rw [run_selfTest_of_go hanswer, hrefused]

/-- A trial run can be stopped where it begins, and not any more where it tells that it went
well. -/
theorem selfTest_cancelled_iff :
    ((k.selfTest seed).run observer s).1 = .error .cancelled ↔
      (observer s .selfTestBegin).1 = true := by
  cases hanswer : observer s .selfTestBegin with
  | mk stop t =>
    cases stop with
    | true =>
      rw [run_selfTest_of_break hanswer]
      exact iff_of_true rfl rfl
    | false =>
      -- the trial run has no failure of its own that looks like a stop
      refine iff_of_false ?_ Bool.false_ne_true
      have hproper := (k.proper_selfTest seed).value_ne_cancelled
      rw [run_selfTest_of_go hanswer]
      cases hvalue : (k.selfTest seed).value with
      | ok u => exact ok_ne_cancelled u
      | error e => rwa [hvalue] at hproper

end PrivateKey

namespace KeyRequest

variable {r : KeyRequest} {a b : Integer}

section MakesKey

variable {key : PrivateKey} (h : r.MakesKey a b key)
include h

/-- The making of a key hands the observer on to the trial run, and gives back what it leaves. -/
theorem MakesKey.run_fromPrimes :
    (r.fromPrimes seed a b).run observer s =
      match (key.selfTest seed).run observer s with
      | (.ok _, t) => (.ok (key.toPublic, key), t)
      | (.error e, t) => (.error e, t) := by
  rw [h.fromPrimes_eq, run_bind]
  rcases (key.selfTest seed).run observer s with ⟨_ | _, _⟩ <;> rfl

theorem MakesKey.run_fromPrimes_of_break (hanswer : observer s .selfTestBegin = (true, t)) :
    (r.fromPrimes seed a b).run observer s = (.error .cancelled, t) := by
  rw [h.run_fromPrimes, PrivateKey.run_selfTest_of_break hanswer]

theorem MakesKey.run_fromPrimes_of_triedOut (hanswer : observer s .selfTestBegin = (false, t))
    (htried : key.TriedOut seed) :
    (r.fromPrimes seed a b).run observer s =
      (.ok (key.toPublic, key), (observer t .selfTestEnd).2) := by
  rw [h.run_fromPrimes, PrivateKey.run_selfTest_of_triedOut hanswer htried]

theorem MakesKey.run_fromPrimes_of_refused (hanswer : observer s .selfTestBegin = (false, t))
    {e : Error} (hrefused : (key.selfTest seed).value = .error e) :
    (r.fromPrimes seed a b).run observer s = (.error e, t) := by
  rw [h.run_fromPrimes, PrivateKey.run_selfTest_of_refused hanswer hrefused]

theorem MakesKey.fromPrimes_cancelled_iff :
    ((r.fromPrimes seed a b).run observer s).1 = .error .cancelled ↔
      (observer s .selfTestBegin).1 = true := by
  have htrial : ((key.selfTest seed).run observer s).1 = .error .cancelled ↔ _ :=
    PrivateKey.selfTest_cancelled_iff
  rw [← htrial, h.run_fromPrimes]
  rcases (key.selfTest seed).run observer s with ⟨_ | _, _⟩ <;> simp

end MakesKey

/-- Two numbers can only be stopped at a trial run, which there is when they are different and have
no common factor. -/
theorem fromPrimes_cancelled_iff (ha : Primality.Found (r.bits / 2) a)
    (hb : Primality.Found (r.bits / 2) b) :
    ((r.fromPrimes seed a b).run observer s).1 = .error .cancelled ↔
      a ≠ b ∧ Int.gcd a.toInt b.toInt = 1 ∧ (observer s .selfTestBegin).1 = true := by
  by_cases hne : a = b
  · subst hne
    rw [fromPrimes_self]
    exact iff_of_false (error_ne_cancelled (by decide)) fun h => h.1 rfl
  by_cases hgcd : Int.gcd a.toInt b.toInt = 1
  · obtain ⟨key, hkey⟩ := exists_makesKey ha hb hne hgcd
    rw [hkey.fromPrimes_cancelled_iff]
    exact ⟨fun hstop => ⟨hne, hgcd, hstop⟩, fun h => h.2.2⟩
  · rw [fromPrimes_of_not_coprime ha hb hne hgcd]
    exact iff_of_false (error_ne_cancelled (by decide)) fun h => hgcd h.2.1

theorem run_generate_of_short (hshort : seed.length < r.seedLength) :
    (r.generate seed).run observer s = (.error .invalidParameter, s) := by
  rw [generate, if_pos hshort]
  rfl

section Generate

variable (hseed : r.seedLength ≤ seed.length)
include hseed

theorem run_generate_of_first_error {e : Error}
    (hfirst : (Primality.search (r.bits / 2) (seed.take (r.bits / 16))).run observer s =
      (.error e, t)) :
    (r.generate seed).run observer s = (.error e, t) := by
  rw [generate, if_neg (not_lt.mpr hseed)]
  dsimp only
  rw [run_bind, hfirst]

/-- The second search begins with the observer that the first one leaves. -/
theorem run_generate_of_first
    (hfirst : (Primality.search (r.bits / 2) (seed.take (r.bits / 16))).run observer s =
      (.ok a, t)) :
    (r.generate seed).run observer s =
      (Primality.search (r.bits / 2) (seed.drop (r.bits / 16)) >>= r.fromPrimes seed a).run
        observer t := by
  rw [generate, if_neg (not_lt.mpr hseed)]
  dsimp only
  rw [run_bind, hfirst]

theorem run_generate_of_second_error {e : Error}
    (hfirst : (Primality.search (r.bits / 2) (seed.take (r.bits / 16))).run observer s = (.ok a, t))
    (hsecond : (Primality.search (r.bits / 2) (seed.drop (r.bits / 16))).run observer t =
      (.error e, u)) :
    (r.generate seed).run observer s = (.error e, u) := by
  rw [run_generate_of_first hseed hfirst, run_bind, hsecond]

theorem run_generate_of_found
    (hfirst : (Primality.search (r.bits / 2) (seed.take (r.bits / 16))).run observer s = (.ok a, t))
    (hsecond : (Primality.search (r.bits / 2) (seed.drop (r.bits / 16))).run observer t =
      (.ok b, u)) :
    (r.generate seed).run observer s = (r.fromPrimes seed a b).run observer u := by
  rw [run_generate_of_first hseed hfirst, run_bind, hsecond]

end Generate

/-- A stop goes up to the request: a key pair is cancelled exactly when the first search is, or the
second one, from where the first has left the observer, or when the trial run is answered with a
stop, for two numbers that it comes to. -/
theorem generate_cancelled_iff (hseed : r.seedLength ≤ seed.length) :
    let first := (Primality.search (r.bits / 2) (seed.take (r.bits / 16))).run observer s
    let second := (Primality.search (r.bits / 2) (seed.drop (r.bits / 16))).run observer first.2
    ((r.generate seed).run observer s).1 = .error .cancelled ↔
      first.1 = .error .cancelled ∨
        ∃ a, first.1 = .ok a ∧
          (second.1 = .error .cancelled ∨
            ∃ b, second.1 = .ok b ∧ a ≠ b ∧ Int.gcd a.toInt b.toInt = 1 ∧
              (observer second.2 .selfTestBegin).1 = true) := by
  obtain ⟨htake, hdrop⟩ := halves_long hseed
  -- each part runs under the observer that the part before it has left
  dsimp only
  cases hfirst : (Primality.search (r.bits / 2) (seed.take (r.bits / 16))).run observer s with
  | mk result t =>
    cases result with
    | error e =>
      rw [run_generate_of_first_error hseed hfirst]
      simp
    | ok a =>
      have ha := r.found_of_search htake (value_of_run_eq_ok hfirst)
      dsimp only
      cases hsecond : (Primality.search (r.bits / 2) (seed.drop (r.bits / 16))).run observer t with
      | mk result u =>
        cases result with
        | error e =>
          rw [run_generate_of_second_error hseed hfirst hsecond]
          simp
        | ok b =>
          have hb := r.found_of_search hdrop (value_of_run_eq_ok hsecond)
          rw [run_generate_of_found hseed hfirst hsecond, fromPrimes_cancelled_iff ha hb]
          simp

end KeyRequest

end Run

/-- An observer of a search, or of the making of a key pair, hears what one that never stops hears,
up to the first stop, and there is no result exactly when there was one. Stops that come when all is
done change nothing. A test that is stopped counts as failed. -/
theorem observers_only_cancel {σ τ : Type} (observer : Observer σ) (s : σ) {silent : Observer τ}
    (hsilent : ∀ t event, (silent t event).1 = false) (t : τ) :
    (∀ (bits : ℕ) (seed : Bytes),
      CutShort (Primality.search bits seed) observer s
        ((Primality.search bits seed).heard silent t)
        ((Primality.search bits seed).run .idle ()).1) ∧
      (∀ (r : KeyRequest) (seed : Bytes),
        CutShort (r.generate seed) observer s ((r.generate seed).heard silent t)
          ((r.generate seed).run .idle ()).1) ∧
      ∀ (p : Integer) (requested : ℕ), Primality.JudgedUnder observer s p requested := by
  refine ⟨?_, ?_, Primality.judgedUnder observer s⟩
  · intro bits seed
    exact (Primality.proper_search bits seed).cutShort_of_silent hsilent t observer s
  · intro r seed
    exact (r.proper_generate seed).cutShort_of_silent hsilent t observer s

open KeyRequest in
/-- A search that is stopped at its second event, and a pair that is made under stops that come too
late. -/
theorem observers_only_cancel_sample :
    (Primality.search 256 (sampleSeed.take 32)).heard (fun n _ => (n == 1, n + 1)) 0 =
        [.sieve 0, .round 0] ∧
      ((Primality.search 256 (sampleSeed.take 32)).run (fun n _ => (n == 1, n + 1)) 0).1 =
        .error .cancelled ∧
      ∃ priv : PrivateKey,
        ((sample.generate sampleSeed).run (fun _ event => (!event.canStop, ())) ()).1 =
          .ok (priv.toPublic, priv) := by
  have hheard : (Primality.search 256 (sampleSeed.take 32)).heard (fun n _ => (n == 1, n + 1)) 0 =
      [.sieve 0, .round 0] := by decide +kernel
  refine ⟨hheard, ?_, ?_⟩
  · obtain ⟨hsearch, -, -⟩ :=
      observers_only_cancel (fun n _ => (n == 1, n + 1)) 0 Observer.idle_silent ()
    apply (hsearch _ _).cancelled_iff.mpr
    rw [hheard]
    exact ⟨1, .round 0, rfl, rfl, rfl⟩
  · obtain ⟨-, hgenerate, -⟩ :=
      observers_only_cancel (fun _ event => (!event.canStop, ())) () Observer.idle_silent ()
    obtain ⟨priv, hrun, -, -⟩ := exists_sample_pair
    refine ⟨priv, ((hgenerate _ _).result_eq ?_).trans (congrArg Prod.fst hrun)⟩
    rw [Ne, (hgenerate _ _).cancelled_iff]
    rintro ⟨i, event, -, hcan, hstop⟩
    have hcannot : (!event.canStop) = true := hstop
    rw [hcan] at hcannot
    cases hcannot

end Signet
