import Mathlib
import Signet.Integer.Text
import Signet.Proofs.Integer.Data

/-! Numerals in a base from 2 to 16 and the integers that they stand for. A byte string is read
exactly when it spells a number: a minus sign or none, and digits of the base, where leading zeros
and letters in either case do no harm. What is written is one of these spellings, without leading
zeros and in upper case, so that it is read back as the integer and stands for all other spellings
of the same number. Digits are taken off words by one division in place after the other, and put
together by one product in place after the other. Main statements: `takenApart_iff`,
`ofAscii?_eq_some_iff`, `Spells.canonical_eq`, `toText_eq`, `format_eq_toText` and
`numerals_exact`. -/
namespace Signet

namespace Magnitude

/-- Divides words in place by a small divisor, the top word first, and gives what is left over.
Words that become zero stay where they are. -/
def divideInto (d : ℕ) : Magnitude → Magnitude × ℕ
  | zero => (zero, 0)
  | word low high =>
    let (quotient, left) := divideInto d high
    let current := left * 2 ^ 64 + low.toNat
    (word (UInt64.ofNat (current / d)) quotient, current % d)

/-- The digits that one division after the other takes off words, lowest first, until no word is
left. -/
inductive TakenApart (base : ℕ) : Magnitude → List ℕ → Prop where
  | done : TakenApart base zero []
  | digit {m : Magnitude} {digits : List ℕ} (hword : m ≠ zero)
      (hrest : TakenApart base (divideInto base m).1.trim digits) :
      TakenApart base m ((divideInto base m).2 :: digits)

theorem trim_divideInto (d : ℕ) (m : Magnitude) :
    ((divideInto d m).1.trim, (divideInto d m).2) = m.divModSmall d := by
  induction m with
  | zero => rfl
  | word low high ih =>
    rw [divModSmall, ← ih]
    rfl

theorem toNat_trim_divideInto {d : ℕ} (hd : 0 < d) (m : Magnitude) :
    (divideInto d m).1.trim.toNat = m.toNat / d ∧ (divideInto d m).2 = m.toNat % d := by
  have hdivision := toNat_divModSmall m d hd
  rwa [← trim_divideInto] at hdivision

/-- Words without a zero word at the top are taken apart into their digits, and the divisions come
to an end because the words are trimmed after each of them. -/
theorem takenApart_iff {base : ℕ} (hbase : 1 < base) {m : Magnitude} (hm : m.Normal)
    {digits : List ℕ} : TakenApart base m digits ↔ digits = Nat.digits base m.toNat := by
  constructor
  · intro h
    induction h with
    | done => exact (Nat.digits_zero base).symm
    | digit hword _ ih =>
      obtain ⟨hquotient, hleft⟩ := toNat_trim_divideInto (by omega : 0 < base) _
      have hpos := Nat.pos_of_ne_zero (mt hm.eq_zero_iff.mpr hword)
      rw [ih (normal_trim _), hquotient, hleft, ← Nat.digits_def' hbase hpos]
  · rintro rfl
    induction hn : m.toNat using Nat.strong_induction_on generalizing m with
    | _ n ih =>
      by_cases hzero : m = zero
      · obtain rfl : n = 0 := by rw [← hn, hzero]; rfl
        rw [hzero, Nat.digits_zero]
        exact .done
      · obtain ⟨hquotient, hleft⟩ := toNat_trim_divideInto (by omega : 0 < base) m
        have hpos : 0 < n := Nat.pos_of_ne_zero (hn ▸ mt hm.eq_zero_iff.mpr hzero)
        rw [hn] at hquotient hleft
        rw [Nat.digits_def' hbase hpos, ← hleft]
        exact .digit hzero (ih _ (Nat.div_lt_self hpos hbase) (normal_trim _) hquotient)

end Magnitude

namespace Integer

section Spelling

/-- The bytes that a text is stored in. -/
def utf8 (text : String) : Bytes := text.toUTF8.data.toList

/-- Characters that one byte each stands for. -/
def ascii (bytes : Bytes) : List Char := bytes.map fun b => Char.ofNat b.toNat

/-- The byte of a digit as it is written. -/
def upperDigit (d : ℕ) : UInt8 := UInt8.ofNat (if d < 10 then 48 + d else 55 + d)

def lowerDigit (d : ℕ) : UInt8 := UInt8.ofNat (if d < 10 then 48 + d else 87 + d)

/-- A byte that shows a digit, a letter in either case. -/
def Shows (d : ℕ) (b : UInt8) : Prop := b = upperDigit d ∨ b = lowerDigit d

def minus (negative : Bool) : Bytes := if negative then [45] else []

/-- The number of a numeral with its digits highest first. -/
def value (radix : ℕ) (negative : Bool) (digits : List ℕ) : ℤ :=
  let n := Nat.ofDigits radix digits.reverse
  if negative then -n else n

/-- The numeral as it is written: in upper case, and one zero alone for no digits. -/
def written (negative : Bool) (digits : List ℕ) : Bytes :=
  if digits = [] then [48] else minus negative ++ digits.map upperDigit

/-- A byte string that spells a number in a base: a minus sign or none, and one or more digits, the
highest first, with letters in either case. -/
structure Spells (radix : ℕ) (text : Bytes) (negative : Bool) (digits : List ℕ) : Prop where
  nonempty : digits ≠ []
  small : ∀ d ∈ digits, d < radix
  row : ∃ row, text = minus negative ++ row ∧ List.Forall₂ Shows digits row

/-- Whether a minus sign comes first, and what comes behind it. -/
def signSplit (text : Bytes) : Bool × Bytes :=
  if text.head? = some 45 then (true, text.tail) else (false, text)

def upperCase (b : UInt8) : UInt8 := if 97 ≤ b ∧ b ≤ 122 then b - 32 else b

/-- A numeral without leading zeros and in upper case. Where nothing is left of its digits it is
one zero without a sign. -/
def canonical (text : Bytes) : Bytes :=
  let (negative, row) := signSplit text
  let kept := (row.map upperCase).dropWhile (· = 48)
  if kept = [] then [48] else minus negative ++ kept

end Spelling

section Bytes

theorem utf8_ofList (bytes : Bytes) (hascii : ∀ b ∈ bytes, b < 128) :
    utf8 (String.ofList (ascii bytes)) = bytes := by
  have hbyte : ∀ n < 128, String.utf8EncodeChar (Char.ofNat n) = [UInt8.ofNat n] := by
    decide +kernel
  rw [utf8, String.toUTF8_eq_toByteArray, String.toByteArray_ofList, List.utf8Encode,
    List.data_toByteArray, ascii, List.flatMap_map]
  induction bytes with
  | nil => rfl
  | cons b rest ih =>
    rw [List.flatMap_cons, hbyte _ (UInt8.lt_iff_toNat_lt.mp (hascii b (by simp))),
      UInt8.ofNat_toNat]
    simpa using ih fun x hx => hascii x (by simp [hx])

/-- The digits of the largest base, byte by byte. -/
theorem digitValue?_sixteen : ∀ n < 256, ∀ d < 16, digitValue? 16 (Char.ofNat n) = some d ↔
    UInt8.ofNat n = upperDigit d ∨ UInt8.ofNat n = lowerDigit d := by
  decide +kernel

theorem digitValue?_eq_some_iff {radix : ℕ} (hradix : radix ≤ 16) (b : UInt8) (d : ℕ) :
    digitValue? radix (Char.ofNat b.toNat) = some d ↔ d < radix ∧ Shows d b := by
  -- a smaller base takes fewer of the same digits
  have hfewer : digitValue? radix (Char.ofNat b.toNat) = some d ↔
      d < radix ∧ digitValue? 16 (Char.ofNat b.toNat) = some d := by
    unfold digitValue?
    dsimp only
    rw [Option.filter_eq_some_iff, Option.filter_eq_some_iff, decide_eq_true_eq, decide_eq_true_eq]
    exact ⟨fun h => ⟨h.2, h.1, h.2.trans_le hradix⟩, fun h => ⟨h.2.1, h.1⟩⟩
  rw [hfewer]
  refine and_congr_right fun hd => ?_
  have htable := digitValue?_sixteen b.toNat b.toNat_lt d (hd.trans_le hradix)
  rwa [UInt8.ofNat_toNat] at htable

/-- What the bytes of the digits are, and what becomes of them. -/
theorem upperDigit_facts : ∀ d < 16, upperDigit d < 128 ∧ upperDigit d ≠ 45 ∧
    (upperDigit d = 48 ↔ d = 0) ∧ upperCase (upperDigit d) = upperDigit d ∧
    (Nat.digitChar d).toUpper = Char.ofNat (upperDigit d).toNat := by
  decide +kernel

theorem lowerDigit_facts : ∀ d < 16, lowerDigit d ≠ 45 ∧ upperCase (lowerDigit d) = upperDigit d ∧
    (Nat.digitChar d).toUpper.toLower = Nat.digitChar d := by
  decide +kernel

theorem mapM_eq_some_iff {α β : Type} {f : α → Option β} {inputs : List α} {outputs : List β} :
    inputs.mapM f = some outputs ↔ List.Forall₂ (fun b a => f a = some b) outputs inputs := by
  induction inputs generalizing outputs with
  | nil =>
    rw [List.mapM_nil, List.forall₂_nil_right_iff]
    exact Option.some_inj.trans eq_comm
  | cons a inputs ih =>
    rw [List.mapM_cons, List.forall₂_cons_right_iff]
    simp only [Option.bind_eq_bind, Option.bind_eq_some_iff, Option.pure_def, Option.some_inj, ih]
    constructor
    · rintro ⟨b, hb, rest, hrest, rfl⟩
      exact ⟨b, rest, hb, hrest, rfl⟩
    · rintro ⟨b, rest, hb, hrest, rfl⟩
      exact ⟨b, hb, rest, hrest, rfl⟩

end Bytes

section Reading

variable {radix : ℕ} {text : Bytes} {negative : Bool} {digits : List ℕ}

theorem signSplit_eq (text : Bytes) :
    text = minus (signSplit text).1 ++ (signSplit text).2 := by
  rw [signSplit]
  split
  · next h =>
    obtain ⟨rest, rfl⟩ := List.head?_eq_some_iff.mp h
    rfl
  · rfl

/-- No digit is a minus sign, so that the sign of a numeral is the one that is split off. -/
theorem Spells.signSplit_eq (h : Spells radix text negative digits) (hradix : radix ≤ 16) :
    ∃ row, signSplit text = (negative, row) ∧ List.Forall₂ Shows digits row := by
  obtain ⟨row, rfl, hrow⟩ := h.row
  refine ⟨row, ?_, hrow⟩
  cases negative with
  | true => rfl
  | false =>
    cases hrow with
    | nil => exact absurd rfl h.nonempty
    | @cons d b digits row hb _ =>
      have hd := (h.small d (by simp)).trans_le hradix
      have hne : b ≠ 45 := by
        rcases hb with rfl | rfl
        · exact (upperDigit_facts d hd).2.1
        · exact (lowerDigit_facts d hd).1
      exact if_neg fun h => hne (Option.some_inj.mp h)

theorem ofAscii?_eq (hradix : isRadix radix = true) (text : Bytes) :
    ofAscii? radix text = ofDigits? radix (signSplit text).1 (ascii (signSplit text).2) := by
  have hminus : ∀ n < 256, Char.ofNat n = '-' → n = 45 := by decide +kernel
  unfold ofAscii? ofChars?
  rw [if_pos hradix, signSplit]
  cases text with
  | nil => rfl
  | cons b rest =>
    by_cases hb : b = 45
    · subst hb
      rfl
    · rw [if_neg (by simpa using hb)]
      split
      · next digits h =>
        obtain ⟨hchar, -⟩ := List.cons.inj h
        exact absurd (UInt8.toNat_inj.mp (hminus _ b.toNat_lt hchar)) hb
      · rfl

theorem toInt_ofDigits (negative : Bool) (hradix : radix ≤ 16) (hsmall : ∀ d ∈ digits, d < radix) :
    (ofMagnitude negative (.ofDigits radix digits)).toInt = value radix negative digits := by
  rw [toInt_ofMagnitude, value, Magnitude.toNat_ofDigits (by omega) digits
    fun d hd => (hsmall d hd).trans_le (hradix.trans (by norm_num))]

theorem ofDigits?_eq_some_iff (hradix : radix ≤ 16) (row : Bytes) {x : Integer} :
    ofDigits? radix negative (ascii row) = some x ↔
      ∃ digits, digits ≠ [] ∧ (∀ d ∈ digits, d < radix) ∧ List.Forall₂ Shows digits row ∧
        x.toInt = value radix negative digits := by
  have hdigits (digits : List ℕ) : (ascii row).mapM (digitValue? radix) = some digits ↔
      (∀ d ∈ digits, d < radix) ∧ List.Forall₂ Shows digits row := by
    rw [mapM_eq_some_iff, ascii, List.forall₂_map_right_iff, ← List.forall₂_and_left]
    simp only [digitValue?_eq_some_iff hradix]
  have hempty (digits : List ℕ) (hrow : List.Forall₂ Shows digits row) :
      (ascii row).isEmpty = true ↔ digits = [] := by
    rw [List.isEmpty_iff, ← List.length_eq_zero_iff, ascii, List.length_map, ← hrow.length_eq,
      List.length_eq_zero_iff]
  rw [ofDigits?]
  constructor
  · intro h
    split at h
    · cases h
    · next hrow =>
      obtain ⟨digits, hread, rfl⟩ := Option.map_eq_some_iff.mp h
      obtain ⟨hsmall, hshown⟩ := (hdigits digits).mp hread
      exact ⟨digits, mt (hempty digits hshown).mpr hrow, hsmall, hshown,
        toInt_ofDigits negative hradix hsmall⟩
  · rintro ⟨digits, hne, hsmall, hshown, hx⟩
    rw [if_neg (mt (hempty digits hshown).mp hne), (hdigits digits).mpr ⟨hsmall, hshown⟩,
      Option.map_some, Option.some_inj, ← toInt_inj, toInt_ofDigits negative hradix hsmall, hx]

theorem isRadix_iff : isRadix radix = true ↔ 2 ≤ radix ∧ radix ≤ 16 := by
  rw [isRadix, Bool.and_eq_true, decide_eq_true_eq, decide_eq_true_eq]

/-- What is read is the number that is spelled, and nothing else is read. -/
theorem ofAscii?_eq_some_iff (hradix : isRadix radix = true) {x : Integer} :
    ofAscii? radix text = some x ↔
      ∃ negative digits, Spells radix text negative digits ∧
        x.toInt = value radix negative digits := by
  have hle := (isRadix_iff.mp hradix).2
  rw [ofAscii?_eq hradix, ofDigits?_eq_some_iff hle]
  constructor
  · rintro ⟨digits, hne, hsmall, hshown, hx⟩
    exact ⟨_, digits, ⟨hne, hsmall, _, signSplit_eq text, hshown⟩, hx⟩
  · rintro ⟨negative, digits, h, hx⟩
    obtain ⟨row, hsplit, hshown⟩ := h.signSplit_eq hle
    rw [hsplit]
    exact ⟨digits, h.nonempty, h.small, hshown, hx⟩

end Reading

section Writing

variable {radix : ℕ} {text : Bytes} {negative : Bool} {digits : List ℕ}

/-- Digits as they are written are digits as they are read. -/
theorem spells_written (hradix : 0 < radix) (hsmall : ∀ d ∈ digits, d < radix)
    (hsign : digits = [] → negative = false) :
    Spells radix (written negative digits) negative (if digits = [] then [0] else digits) := by
  rw [written]
  split
  · next hempty =>
    rw [hsign hempty]
    exact ⟨nofun, by simpa using hradix, [48], rfl, .cons (.inl rfl) .nil⟩
  · next hne =>
    refine ⟨hne, hsmall, _, rfl, ?_⟩
    rw [List.forall₂_map_right_iff, List.forall₂_same]
    exact fun d _ => .inl rfl

/-- Both ways to show a digit are the same in upper case. -/
theorem map_upperCase {row : Bytes} (hdigits : ∀ d ∈ digits, d < 16)
    (hshown : List.Forall₂ Shows digits row) : row.map upperCase = digits.map upperDigit := by
  rw [← List.forall₂_eq_eq_eq, List.forall₂_map_left_iff, List.forall₂_map_right_iff]
  refine (((List.forall₂_and_left _ _).mpr ⟨hdigits, hshown⟩).imp ?_).flip
  rintro d b ⟨hd, rfl | rfl⟩
  · exact (upperDigit_facts d hd).2.2.2.1
  · exact (lowerDigit_facts d hd).2.1

/-- Zero is the one digit that is shown as a zero. -/
theorem dropWhile_map_upperDigit (hdigits : ∀ d ∈ digits, d < 16) :
    (digits.map upperDigit).dropWhile (· = 48) = (digits.dropWhile (· = 0)).map upperDigit := by
  induction digits with
  | nil => rfl
  | cons d rest ih =>
    have hzero := (upperDigit_facts d (hdigits d (by simp))).2.2.1
    simp only [List.map_cons, List.dropWhile_cons, decide_eq_true_eq, hzero]
    split
    · exact ih fun x hx => hdigits x (by simp [hx])
    · rfl

theorem Spells.canonical_eq (h : Spells radix text negative digits) (hradix : radix ≤ 16) :
    canonical text = written negative (digits.dropWhile (· = 0)) := by
  obtain ⟨row, hsplit, hshown⟩ := h.signSplit_eq hradix
  have hdigits : ∀ d ∈ digits, d < 16 := fun d hd => (h.small d hd).trans_le hradix
  rw [canonical, hsplit]
  dsimp only
  rw [map_upperCase hdigits hshown, dropWhile_map_upperDigit hdigits]
  simp only [List.map_eq_nil_iff, written]

/-- The sign as it stands before digits. -/
def signText (x : Integer) : List Char := if x.negative then ['-'] else []

theorem toText_eq_ofList (hradix : isRadix radix = true) (x : Integer) :
    x.toText radix =
      .ok (String.ofList (x.signText ++ (x.digitText radix).map Char.toUpper)) := by
  rw [toText, if_pos hradix, signText]
  cases x.negative <;> rfl

/-- The digits of the absolute value, the highest first; zero has none. -/
def places (radix : ℕ) (x : Integer) : List ℕ := (Nat.digits radix x.toInt.natAbs).reverse

theorem places_eq_nil_iff {x : Integer} : places radix x = [] ↔ x.toInt = 0 := by
  rw [places, List.reverse_eq_nil_iff, Nat.digits_eq_nil_iff_eq_zero, Int.natAbs_eq_zero]

theorem places_lt (hradix : 1 < radix) {x : Integer} {d : ℕ} (h : d ∈ places radix x) :
    d < radix :=
  Nat.digits_lt_base hradix (List.mem_reverse.mp h)

theorem negative_eq_false_of_places {x : Integer} (h : places radix x = []) :
    x.negative = false := by
  have hzero := places_eq_nil_iff.mp h
  exact Bool.eq_false_iff.mpr (mt (negative_iff x).mp (by omega))

theorem text_eq_ascii (hradix : isRadix radix = true) (x : Integer) :
    x.signText ++ (x.digitText radix).map Char.toUpper =
      ascii (written x.negative (places radix x)) := by
  obtain ⟨htwo, hle⟩ := isRadix_iff.mp hradix
  have hminus : x.signText = ascii (minus x.negative) := by
    rw [signText]
    cases x.negative <;> rfl
  have hempty : x.isZero = true ↔ places radix x = [] := by rw [isZero_iff, places_eq_nil_iff]
  rw [digitText, written]
  by_cases hzero : x.isZero = true
  · rw [if_pos hzero, if_pos (hempty.mp hzero), hminus,
      negative_eq_false_of_places (hempty.mp hzero)]
    rfl
  · have hdigits : ((x.magnitude.toDigits radix).map Nat.digitChar).map Char.toUpper =
        ascii ((places radix x).map upperDigit) := by
      rw [Magnitude.toDigits_eq_digits htwo, toNat_magnitude, ← places, ascii, List.map_map,
        List.map_map]
      refine List.map_congr_left fun d hd => ?_
      exact (upperDigit_facts d ((places_lt htwo hd).trans_le hle)).2.2.2.2
    rw [if_neg hzero, if_neg (mt hempty.mpr hzero), hminus, hdigits, ascii, ascii, ascii,
      List.map_append]

theorem written_lt (hdigits : ∀ d ∈ digits, d < 16) : ∀ b ∈ written negative digits, b < 128 := by
  intro b hb
  rw [written] at hb
  split at hb
  · rw [List.mem_singleton.mp hb]
    decide
  · rcases List.mem_append.mp hb with hb | hb
    · cases negative with
      | true => rw [List.mem_singleton.mp hb]; decide
      | false => cases hb
    · obtain ⟨d, hd, rfl⟩ := List.mem_map.mp hb
      exact (upperDigit_facts d (hdigits d hd)).1

/-- The numeral that is written for an integer: its digits, and no leading zeros. -/
theorem toText_eq (hradix : isRadix radix = true) (x : Integer) :
    ∃ text, x.toText radix = .ok text ∧ utf8 text = written x.negative (places radix x) := by
  obtain ⟨htwo, hle⟩ := isRadix_iff.mp hradix
  refine ⟨_, toText_eq_ofList hradix x, ?_⟩
  rw [text_eq_ascii hradix]
  exact utf8_ofList _ (written_lt fun d hd => (places_lt htwo hd).trans_le hle)

/-- What is written for an integer is read as this integer. -/
theorem ofAscii?_written (hradix : isRadix radix = true) (x : Integer) :
    ofAscii? radix (written x.negative (places radix x)) = some x := by
  have htwo := (isRadix_iff.mp hradix).1
  refine (ofAscii?_eq_some_iff hradix).mpr
    ⟨_, _, spells_written (by omega) (fun d => places_lt htwo) negative_eq_false_of_places, ?_⟩
  have hvalue : Nat.ofDigits radix (if places radix x = [] then [0] else places radix x).reverse =
      x.toInt.natAbs := by
    split
    · next h =>
      rw [places_eq_nil_iff.mp h]
      rfl
    · rw [places, List.reverse_reverse, Nat.ofDigits_digits]
  rw [value, hvalue]
  split
  · next h =>
    have hneg := (negative_iff x).mp h
    omega
  · next h =>
    have hnonneg := mt (negative_iff x).mpr h
    omega

/-- What is read from a spelling is written as the same numeral without leading zeros and in upper
case. -/
theorem Spells.toText_eq (h : Spells radix text negative digits) (hradix : isRadix radix = true)
    {x : Integer} (hx : x.toInt = value radix negative digits) :
    ∃ out, x.toText radix = .ok out ∧ utf8 out = canonical text := by
  obtain ⟨htwo, hle⟩ := isRadix_iff.mp hradix
  obtain ⟨out, hout, hbytes⟩ := Integer.toText_eq hradix x
  refine ⟨out, hout, ?_⟩
  have hsize : x.toInt.natAbs = Nat.ofDigits radix digits.reverse := by
    rw [hx, value]
    cases negative <;> simp
  have hkept : places radix x = digits.dropWhile (· = 0) := by
    rw [places, hsize, Magnitude.digits_ofDigits_reverse htwo h.small]
  rw [hbytes, h.canonical_eq hle, hkept, written, written]
  split
  · rfl
  · next hne =>
    -- a number that is not zero has the sign that was read
    have hpos : x.toInt ≠ 0 := by rwa [← hkept, places_eq_nil_iff] at hne
    have hsign : x.negative = negative := by
      rw [← Int.natAbs_ne_zero, hsize] at hpos
      rw [Bool.eq_iff_iff, negative_iff, hx, value]
      cases negative with
      | false => simp
      | true => simpa using Nat.pos_of_ne_zero hpos
    rw [hsign]

end Writing

section Formats

variable {radix : ℕ}

theorem mem_digitText (hradix : 1 < radix) {x : Integer} {c : Char} (h : c ∈ x.digitText radix) :
    ∃ d < radix, c = Nat.digitChar d := by
  rw [digitText] at h
  split at h
  · exact ⟨0, by omega, List.mem_singleton.mp h⟩
  · obtain ⟨d, hd, rfl⟩ := List.mem_map.mp h
    rw [Magnitude.toDigits_eq_digits hradix, List.mem_reverse] at hd
    exact ⟨d, Nat.digits_lt_base hradix hd, rfl⟩

/-- The digits of a notation are those of the text, which are in upper case. -/
theorem Numeral.digits_eq (base : Numeral) (x : Integer) :
    base.digits x = ((x.digitText base.radix).map Char.toUpper).map
      (if base = .lowerHex then Char.toLower else id) := by
  have hplain (h : base.radix ≤ 10) (hbase : 1 < base.radix) :
      (x.digitText base.radix).map Char.toUpper = x.digitText base.radix := by
    have hdecimal : ∀ d < 10, (Nat.digitChar d).toUpper = Nat.digitChar d := by decide
    refine (List.map_congr_left fun c hc => ?_).trans (List.map_id _)
    obtain ⟨d, hd, rfl⟩ := mem_digitText hbase hc
    exact hdecimal d (hd.trans_le h)
  cases base with
  | decimal =>
    rw [if_neg nofun, List.map_id, hplain (by decide) (by decide), digits, if_neg nofun]
  | binary =>
    rw [if_neg nofun, List.map_id, hplain (by decide) (by decide), digits, if_neg nofun]
  | upperHex => rw [if_neg nofun, List.map_id, digits, if_pos rfl]
  | lowerHex =>
    rw [if_pos rfl, digits, if_neg nofun, List.map_map]
    symm
    refine (List.map_congr_left fun c hc => ?_).trans (List.map_id _)
    obtain ⟨d, hd, rfl⟩ := mem_digitText (by decide) hc
    exact (lowerDigit_facts d hd).2.2

theorem pad_eq_self (fill : Char) (align : Text.Alignment) {width : ℕ} {text : List Char}
    (h : width ≤ text.length) : Text.pad fill align width text = text := by
  unfold Text.pad
  rw [Nat.sub_eq_zero_of_le h]
  cases align <;> exact List.append_nil _

/-- Without a plus sign, without the mark of the base and in a field that it fills, an integer is
laid out as it is written in the base, in lower case where that is asked for. -/
theorem format_eq_toText (f : Format) (x : Integer) (hplus : f.plus = false)
    (hmarked : f.marked = false) :
    ∃ text, x.toText f.base.radix = .ok text ∧
      (f.width ≤ text.length →
        x.format f = if f.base = .lowerHex then text.toLower else text) := by
  have hradix : isRadix f.base.radix = true := by cases f.base <;> rfl
  refine ⟨_, toText_eq_ofList hradix x, fun hwidth => ?_⟩
  have hlength : f.width ≤ (x.signText ++ f.base.digits x).length := by
    rwa [Numeral.digits_eq, List.length_append, List.length_map, ← List.length_append,
      ← String.length_ofList]
  have hformat : x.format f = String.ofList (x.signText ++ f.base.digits x) := by
    have hdigits : f.width - x.signText.length ≤ (f.base.digits x).length := by
      rw [List.length_append] at hlength
      omega
    have hhead : (if x.negative then ['-'] else if f.plus then ['+'] else []) ++
        (if f.marked then f.base.mark else []) = x.signText := by
      rw [hplus, hmarked, if_neg Bool.false_ne_true, if_neg Bool.false_ne_true, List.append_nil,
        signText]
    rw [format]
    rw [hhead, pad_eq_self _ _ hdigits, pad_eq_self _ _ hlength, ite_self]
  have hsign : x.signText.map Char.toLower = x.signText := by
    rw [signText]
    cases x.negative <;> rfl
  rw [hformat, Numeral.digits_eq, ← String.toList_inj, String.toList_ofList]
  split
  · rw [String.toLower, String.toList_map, String.toList_ofList, List.map_append, hsign]
  · rw [List.map_id, String.toList_ofList]

end Formats

/-- Numerals are exact both ways. In each base from 2 to 16 every integer is taken apart into
digits by one run of divisions, and is read back from the numeral that these give; a byte string is
read exactly when it spells a number, as this number, which is written again as the same numeral
without leading zeros and in upper case. No other base has numerals. The digits of a numeral are
put together in place, and a format that adds nothing lays an integer out as it is written. -/
theorem numerals_exact :
    (∀ radix, 2 ≤ radix → radix ≤ 16 →
      (∀ x : Integer, ∃ digits text,
        (∀ taken, Magnitude.TakenApart radix x.magnitude taken ↔ taken = digits) ∧
        x.toText radix = .ok text ∧ utf8 text = written x.negative digits.reverse ∧
        ofAscii? radix (utf8 text) = some x) ∧
      (∀ text, (ofAscii? radix text).isSome = true ↔
        ∃ negative digits, Spells radix text negative digits) ∧
      ∀ text negative digits, Spells radix text negative digits →
        ∃ x out, ofAscii? radix text = some x ∧ x.toInt = value radix negative digits ∧
          x.toText radix = .ok out ∧ utf8 out = canonical text) ∧
    (∀ radix, ¬(2 ≤ radix ∧ radix ≤ 16) →
      (∀ text, ofAscii? radix text = none) ∧
        ∀ x : Integer, x.toText radix = .error .invalidParameter) ∧
    (∀ radix text, (ofAscii? radix text).map data = Data.ofAscii? radix text) ∧
    ∀ (f : Format) (x : Integer), f.plus = false → f.marked = false →
      ∃ text, x.toText f.base.radix = .ok text ∧
        (f.width ≤ text.length →
          x.format f = if f.base = .lowerHex then text.toLower else text) := by
  refine ⟨fun radix htwo hle => ?_, fun radix hother => ⟨fun text => ?_, fun x => ?_⟩,
    fun radix text => data_ofAscii? radix text, format_eq_toText⟩
  · have hradix := isRadix_iff.mpr ⟨htwo, hle⟩
    refine ⟨fun x => ?_, fun text => ?_, fun text negative digits h => ?_⟩
    · obtain ⟨text, htext, hbytes⟩ := toText_eq hradix x
      refine ⟨_, text, fun taken => ?_, htext, hbytes, ?_⟩
      · rw [Magnitude.takenApart_iff htwo x.normal, toNat_magnitude]
      · rw [hbytes, ofAscii?_written hradix]
    · rw [Option.isSome_iff_exists]
      constructor
      · rintro ⟨x, hx⟩
        obtain ⟨negative, digits, h, -⟩ := (ofAscii?_eq_some_iff hradix).mp hx
        exact ⟨negative, digits, h⟩
      · rintro ⟨negative, digits, h⟩
        have hx := toInt_ofDigits negative hle h.small
        exact ⟨_, (ofAscii?_eq_some_iff hradix).mpr ⟨negative, digits, h, hx⟩⟩
    · have hx := toInt_ofDigits negative hle h.small
      obtain ⟨out, hout, hbytes⟩ := h.toText_eq hradix hx
      exact ⟨_, out, (ofAscii?_eq_some_iff hradix).mpr ⟨negative, digits, h, hx⟩, hx, hout, hbytes⟩
  · unfold ofAscii? ofChars?
    rw [if_neg (mt isRadix_iff.mp hother)]
  · rw [toText, if_neg (mt isRadix_iff.mp hother)]

/-- A minus sign, a zero and two letters, one of them small, in base 16. There is no base 17, and
what is laid out without anything added is the numeral in small letters. -/
theorem numerals_exact_sample :
    (∃ x out, ofAscii? 16 [45, 48, 102, 70] = some x ∧ x.toInt = -255 ∧ x.toText 16 = .ok out ∧
      utf8 out = [45, 70, 70]) ∧
    ofAscii? 17 [49] = none ∧
    ∃ text, (ofInt64 (-255)).toText 16 = .ok text ∧ (ofInt64 (-255)).toHex = text.toLower := by
  obtain ⟨hbase, hother, -, hformat⟩ := numerals_exact
  have hspells : Spells 16 [45, 48, 102, 70] true [0, 15, 15] :=
    ⟨nofun, by decide, [48, 102, 70], rfl,
      .cons (.inl (by decide)) (.cons (.inr (by decide)) (.cons (.inl (by decide)) .nil))⟩
  obtain ⟨text, htext, hlower⟩ := hformat { base := .lowerHex } (ofInt64 (-255)) rfl rfl
  exact ⟨(hbase 16 (by decide) (by decide)).2.2 _ _ _ hspells,
    (hother 17 (by decide)).1 _, text, htext, hlower (Nat.zero_le _)⟩

end Integer
end Signet
