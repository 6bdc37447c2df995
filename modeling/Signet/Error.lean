/-!
The causes for which an operation is refused, and the wording of each.
-/
namespace Signet

/-- Why an operation gave no result. -/
inductive Error where
  -- an argument is missing, malformed or out of range
  | invalidParameter
  -- the wrong half of a key pair was handed in
  | keyMismatch
  -- a time lies outside the validity window of the key
  | expired
  -- a number would need more room than numbers may take
  | tooLarge
  -- stored or decoded data has no valid structure
  | malformed
  -- the checksum of the decrypted secrets does not match
  | wrongPassphrase
  -- the number shares a factor with the modulus
  | notInvertible
  -- both prime searches ended at the same prime
  | equalPrimes
  -- a prime search ran out of room
  | searchExhausted
  -- a sound signature carries another hash
  | hashMismatch
  -- the observer asked to stop
  | cancelled
  -- a value does not fit the machine integer asked for
  | truncated
deriving DecidableEq, Inhabited

namespace Error

def message : Error → String
  | invalidParameter => "invalid parameter"
  | keyMismatch => "key type does not match the operation"
  | expired => "key or timestamp expired"
  | tooLarge => "allocation failure"
  | malformed => "format error"
  | wrongPassphrase => "wrong passphrase"
  | notInvertible => "no modular inverse"
  | equalPrimes => "generated primes are equal"
  | searchExhausted => "prime search exhausted"
  | hashMismatch => "verification error"
  | cancelled => "operation cancelled"
  | truncated => "value truncated"

/-- Whether the fault lies in the data itself, and not in an argument or a passphrase. -/
def isMalformed : Error → Bool
  | malformed => true
  | _ => false

/-- Whether another attempt with fresh random material may succeed. -/
def isRetryable : Error → Bool
  | equalPrimes | searchExhausted | notInvertible => true
  | _ => false

end Error

def require (condition : Bool) (error : Error) : Except Error Unit :=
  if condition then .ok () else .error error

theorem require_eq_ok_iff {condition : Bool} {error : Error} {u : Unit} :
    require condition error = .ok u ↔ condition = true := by
  cases condition <;> simp [require]

theorem require_eq_error_iff {condition : Bool} {error e : Error} :
    require condition error = .error e ↔ condition = false ∧ error = e := by
  cases condition <;> simp [require]

@[simp] theorem require_true (error : Error) : require true error = .ok () := rfl

theorem ok_bind {α β : Type} (a : α) (f : α → Except Error β) :
    (Except.ok a >>= f) = f a := rfl

theorem error_bind {α β : Type} (e : Error) (f : α → Except Error β) :
    (Except.error e >>= f) = .error e := rfl

/-- A chain of steps gives a result when both its parts do. -/
theorem bind_eq_ok_iff {α β : Type} {x : Except Error α} {f : α → Except Error β} {b : β} :
    (x >>= f) = .ok b ↔ ∃ a, x = .ok a ∧ f a = .ok b := by
  cases x with
  | ok a =>
    rw [ok_bind]
    constructor
    · intro h
      exact ⟨a, rfl, h⟩
    · rintro ⟨_, ⟨⟩, h⟩
      exact h
  | error e =>
    rw [error_bind]
    constructor
    · nofun
    · rintro ⟨_, ⟨⟩, -⟩

/-- A chain of steps fails where one of its parts does. -/
theorem bind_eq_error_iff {α β : Type} {x : Except Error α} {f : α → Except Error β} {e : Error} :
    (x >>= f) = .error e ↔ x = .error e ∨ ∃ a, x = .ok a ∧ f a = .error e := by
  cases x with
  | ok a =>
    rw [ok_bind]
    constructor
    · intro h
      exact Or.inr ⟨a, rfl, h⟩
    · rintro (⟨⟨⟩⟩ | ⟨_, ⟨⟩, h⟩)
      exact h
  | error e' =>
    rw [error_bind, Except.error.injEq, Except.error.injEq]
    constructor
    · exact Or.inl
    · rintro (h | ⟨_, ⟨⟩, -⟩)
      exact h

end Signet
