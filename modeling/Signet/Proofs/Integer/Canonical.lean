import Mathlib
import Signet.Proofs.Integer.Data

/-! Calls of the operations, made one after another on variables. What they leave in the variables is
followed twice: on integers, and on data that promise nothing. The data stay those of the integers,
so that they stay canonical. Main statements: `data_apply`, `data_run` and `runs_canonical`. -/
namespace Signet.Integer

/-- A call of an operation. Its operands are variables, and one may stand in several places. -/
inductive Call where
  | ofUInt64 (w : UInt64)
  | ofInt64 (n : Int64)
  | ofBytes (bytes : Bytes)
  | load (bytes : Bytes) (width : ℕ)
  | parse (radix : ℕ) (text : Bytes)
  | copy (i : ℕ)
  | neg (i : ℕ)
  | abs (i : ℕ)
  | add (i j : ℕ)
  | sub (i j : ℕ)
  | mul (i j : ℕ)
  | div (i j : ℕ)
  | mod (i j : ℕ)
  | shiftLeft (i count : ℕ)
  | halve (i : ℕ)
  | setBit (i place : ℕ) (value : Bool)
  | modPow (i j k : ℕ)
  | modInverse (i j : ℕ)
  | gcd (i j : ℕ)
  | clear

namespace Call

/-- What a call gives on integers; nothing when it fails. -/
def apply (vars : ℕ → Integer) : Call → Option Integer
  | ofUInt64 w => some (.ofUInt64 w)
  | ofInt64 n => some (.ofInt64 n)
  | ofBytes bytes => some (.ofBytes bytes)
  | load bytes width => (Integer.load bytes width).toOption
  | parse radix text => ofAscii? radix text
  | copy i => some (vars i)
  | neg i => some (-vars i)
  | abs i => some (vars i).abs
  | add i j => some (vars i + vars j)
  | sub i j => some (vars i - vars j)
  | mul i j => some (vars i * vars j)
  | div i j => some (vars i / vars j)
  | mod i j => some (vars i % vars j)
  | shiftLeft i count => some ((vars i).shiftLeft count)
  | halve i => some (vars i).halve
  | setBit i place value => ((vars i).setBit place value).toOption
  | modPow i j k => some ((vars i).modPow (vars j) (vars k))
  | modInverse i j => ((vars i).modInverse (vars j)).toOption
  | gcd i j => ((vars i).gcd (vars j)).toOption
  | clear => some 0

/-- What a call gives on data. -/
def edit (vars : ℕ → Data) : Call → Option Data
  | ofUInt64 w => some (.ofUInt64 w)
  | ofInt64 n => some (.ofInt64 n)
  | ofBytes bytes => some (.ofBytes bytes)
  | load bytes width => (Data.load bytes width).toOption
  | parse radix text => Data.ofAscii? radix text
  | copy i => some (vars i)
  | neg i => some (vars i).neg
  | abs i => some (vars i).abs
  | add i j => some ((vars i).add (vars j))
  | sub i j => some ((vars i).sub (vars j))
  | mul i j => some ((vars i).mul (vars j))
  | div i j => some ((vars i).div (vars j))
  | mod i j => some ((vars i).mod (vars j))
  | shiftLeft i count => some ((vars i).shiftLeft count)
  | halve i => some (vars i).halve
  | setBit i place value => ((vars i).setBit place value).toOption
  | modPow i j k => some ((vars i).modPow (vars j) (vars k))
  | modInverse i j => ((vars i).modInverse (vars j)).toOption
  | gcd i j => ((vars i).gcd (vars j)).toOption
  | clear => some .zero

end Call

/-- A variable takes what a call gives. A call that fails leaves it as it is. -/
def assign {α : Type} (vars : ℕ → α) (target : ℕ) : Option α → ℕ → α
  | some value => Function.update vars target value
  | none => vars

/-- The variables after some calls, each with the variable that takes its result; all start at
zero. -/
def run (calls : List (ℕ × Call)) : ℕ → Integer :=
  calls.foldl (fun vars call => assign vars call.1 (call.2.apply vars)) fun _ => 0

def Data.run (calls : List (ℕ × Call)) : ℕ → Data :=
  calls.foldl (fun vars call => assign vars call.1 (call.2.edit vars)) fun _ => .zero

theorem map_toOption {α β : Type} (f : α → β) (result : Except Error α) :
    result.toOption.map f = (result.map f).toOption := by
  cases result <;> rfl

/-- A call gives the data of what it gives on integers. -/
theorem data_apply (vars : ℕ → Integer) (call : Call) :
    (call.apply vars).map data = call.edit fun i => (vars i).data := by
  cases call with
  | ofUInt64 w => exact congrArg some (data_ofUInt64 w)
  | ofInt64 n => exact congrArg some (data_ofInt64 n)
  | ofBytes bytes => exact congrArg some (data_ofBytes bytes)
  | load bytes width => rw [Call.apply, Call.edit, map_toOption, data_load]
  | parse radix text => exact data_ofAscii? radix text
  | copy i => rfl
  | neg i => exact congrArg some (data_neg (vars i))
  | abs i => exact congrArg some (data_abs (vars i))
  | add i j => exact congrArg some (data_add (vars i) (vars j))
  | sub i j => exact congrArg some (data_sub (vars i) (vars j))
  | mul i j => exact congrArg some (data_mul (vars i) (vars j))
  | div i j => exact congrArg some (data_div (vars i) (vars j))
  | mod i j => exact congrArg some (data_mod (vars i) (vars j))
  | shiftLeft i count => exact congrArg some (data_shiftLeft (vars i) count)
  | halve i => exact congrArg some (data_halve (vars i))
  | setBit i place value => rw [Call.apply, Call.edit, map_toOption, data_setBit]
  | modPow i j k => exact congrArg some (data_modPow (vars i) (vars j) (vars k))
  | modInverse i j => rw [Call.apply, Call.edit, map_toOption, data_modInverse]
  | gcd i j => rw [Call.apply, Call.edit, map_toOption, data_gcd]
  | clear => rfl

theorem data_assign (vars : ℕ → Integer) (target : ℕ) (result : Option Integer) :
    (fun i => (assign vars target result i).data) =
      assign (fun i => (vars i).data) target (result.map data) := by
  cases result with
  | none => rfl
  | some x => exact Function.comp_update data vars target x

/-- The data stay those of the integers through any calls. -/
theorem data_run (calls : List (ℕ × Call)) : (fun i => (run calls i).data) = Data.run calls := by
  -- the induction is on the calls made so far, as the next one reads the variables they leave
  induction calls using List.reverseRecOn with
  | nil => rfl
  | append_singleton calls call ih =>
    rw [run, Data.run, List.foldl_append, List.foldl_append, ← run, ← Data.run, List.foldl_cons,
      List.foldl_cons, List.foldl_nil, List.foldl_nil, data_assign, data_apply, ih]

/-- Any calls leave canonical data, so that data are one exactly when the numbers are one, and their
order, by the number of words and then by the words, is the order of the numbers. -/
theorem runs_canonical (calls calls' : List (ℕ × Call)) (i j : ℕ) :
    (Data.run calls i).Canonical ∧ Data.run calls i = (run calls i).data ∧
      (Data.run calls i = Data.run calls' j ↔ (run calls i).toInt = (run calls' j).toInt) ∧
      (Data.run calls i).compare (Data.run calls' j) =
        Ord.compare (run calls i).toInt (run calls' j).toInt ∧
      ((Data.run calls i).compare (Data.run calls' j) = .eq ↔
        Data.run calls i = Data.run calls' j) ∧
      (run calls i = run calls' j ↔ (run calls i).toInt = (run calls' j).toInt) ∧
      (run calls i).compare (run calls' j) =
        Ord.compare (run calls i).toInt (run calls' j).toInt := by
  have hdata : Data.run calls i = (run calls i).data := (congrFun (data_run calls) i).symm
  have hdata' : Data.run calls' j = (run calls' j).data := (congrFun (data_run calls') j).symm
  rw [hdata, hdata', compare_data, compare_eq]
  exact ⟨canonical_data _, rfl, data_inj.trans toInt_inj.symm, rfl,
    Int.compare_eq_eq.trans (toInt_inj.trans data_inj.symm), toInt_inj.symm, rfl⟩

-- a digit three words up is set, the sign flipped, and the digit cleared again
example :
    (Data.run [(0, .setBit 0 130 true), (1, .neg 0)] 1).words.wordCount = 3 ∧
      Data.run [(0, .setBit 0 130 true), (1, .neg 0), (1, .setBit 1 130 false)] 1 = .zero := by
  decide

end Signet.Integer
