import Mathlib
import Signet.Proofs.Cipher.Blockwise

/-! A byte string that comes in pieces, each taken as a whole. A `Buffer` keeps the bytes of a block
that is not full yet. A piece completes that block first; its own whole blocks are put behind the
output and done there; what is left of it waits. Every length that this takes for granted is
checked, and the checks never fail. However a byte string is cut into pieces, what comes out is what
its blocks give one by one. Main statements: `Tracks.exists_update?`, `exists_feed?` and
`pieces_exact`. -/
namespace Signet

namespace Blockwise

/-- The bytes of a block that is not full, and the bytes that are done. -/
structure Buffer where
  pending : Bytes := []
  output : Bytes := []

namespace Buffer

variable (f : Block → Block)

/-- A block that is done in place; it has to be of sixteen bytes. -/
def process? (bytes : Bytes) : Option Bytes :=
  if h : bytes.length = 16 then some (f ⟨bytes.toArray, h⟩).toList else none

/-- The first `count` blocks are done in place, and what stands behind them stays. -/
def processRow? : ℕ → Bytes → Option Bytes
  | 0, bytes => some bytes
  | count + 1, bytes => do
    let block ← process? f (bytes.take 16)
    let rest ← processRow? count (bytes.drop 16)
    some (block ++ rest)

/-- Puts the whole blocks of a piece behind the output and does them there, up to the end of the
output. The bytes that are left wait. -/
def takeBlocks? (s : Buffer) (bytes : Bytes) : Option Buffer := do
  let whole := bytes.length - bytes.length % 16
  let start := s.output.length
  let output := s.output ++ bytes.take whole
  let row ← processRow? f ((output.drop start).length / 16) (output.drop start)
  some ⟨s.pending ++ bytes.drop whole, output.take start ++ row⟩

/-- Takes a piece in. No more than a block may wait, or there is no number of bytes that it
lacks. -/
def update? (s : Buffer) (bytes : Bytes) : Option Buffer :=
  if s.pending.isEmpty then takeBlocks? f s bytes
  else if s.pending.length ≤ 16 then
    let count := min (16 - s.pending.length) bytes.length
    let pending := s.pending ++ bytes.take count
    if pending.length < 16 then some ⟨pending, s.output⟩
    else do
      let block ← process? f pending
      takeBlocks? f ⟨[], s.output ++ block⟩ (bytes.drop count)
  else none

def feed? (s : Buffer) (pieces : List Bytes) : Option Buffer := pieces.foldlM (update? f) s

def finish (s : Buffer) : Except Error Bytes :=
  if s.pending.isEmpty then .ok s.output else .error .invalidParameter

theorem process?_toList (b : Block) : process? f b.toList = some (f b).toList := by
  have hlength : b.toList.length = 16 := b.length_toList
  rw [process?, dif_pos hlength]
  congr 2

theorem processRow?_blocks (blocks : List Block) :
    processRow? f blocks.length (blocks.flatMap Vector.toList) =
      some ((blocks.map f).flatMap Vector.toList) := by
  induction blocks with
  | nil => rfl
  | cons b rest ih =>
    have hlength : b.toList.length = 16 := b.length_toList
    rw [List.length_cons, processRow?, List.flatMap_cons, List.take_left' hlength,
      List.drop_left' hlength, process?_toList, ih]
    rfl

/-- Whole blocks go through, and what is left of the piece waits. -/
theorem takeBlocks?_eq (s : Buffer) (blocks : List Block) (tail : Bytes) (h : tail.length < 16) :
    takeBlocks? f s (blocks.flatMap Vector.toList ++ tail) =
      some ⟨s.pending ++ tail, s.output ++ (blocks.map f).flatMap Vector.toList⟩ := by
  have hblocks := length_flatMap_toList blocks
  have hwhole : (blocks.flatMap Vector.toList ++ tail).length -
      (blocks.flatMap Vector.toList ++ tail).length % 16 =
        (blocks.flatMap Vector.toList).length := by
    rw [List.length_append]
    omega
  have hcount : (blocks.flatMap Vector.toList).length / 16 = blocks.length := by omega
  rw [takeBlocks?, hwhole, List.take_left, List.drop_left, List.drop_left, List.take_left, hcount,
    processRow?_blocks]
  rfl

end Buffer

/-- The blocks that are done, the earliest first. -/
def doneBytes (done : List Block) : Bytes := done.reverse.flatMap Vector.toList

theorem doneBytes_cons (b : Block) (done : List Block) :
    doneBytes (b :: done) = doneBytes done ++ b.toList := by
  rw [doneBytes, doneBytes, List.reverse_cons, List.flatMap_append, List.flatMap_singleton]

theorem doneBytes_append (blocks done : List Block) :
    doneBytes (blocks.reverse ++ done) = doneBytes done ++ blocks.flatMap Vector.toList := by
  rw [doneBytes, doneBytes, List.reverse_append, List.reverse_reverse, List.flatMap_append]

/-- A buffer beside the same bytes taken one at a time: the same bytes wait, fewer than a block of
them, and the same blocks are done. -/
structure Tracks (s : Buffer) (b : Blockwise) : Prop where
  pending_eq : s.pending = b.pending
  pending_lt : s.pending.length < 16
  output_eq : s.output = doneBytes b.finished

section Step

open Buffer (takeBlocks? update?)

variable {f : Block → Block}

/-- Bytes that complete the block that waits. -/
theorem update_complete {pending bytes : Bytes} {b : Block} (done : List Block)
    (hpending : pending.length < 16) (hb : b.toList = pending ++ bytes) :
    update f ⟨pending, done⟩ bytes = ⟨[], f b :: done⟩ := by
  have hshort := update_of_short f [] pending done (by rwa [List.length_nil, Nat.zero_add])
  rw [List.nil_append] at hshort
  rw [← hshort, ← update_append, ← hb, update_block]

variable {s : Buffer} {b : Blockwise}

/-- Where no block waits, a piece is its whole blocks and a part of one. -/
theorem Tracks.exists_takeBlocks? (h : Tracks s b) (hpending : s.pending = []) (bytes : Bytes) :
    ∃ s', takeBlocks? f s bytes = some s' ∧ Tracks s' (update f b bytes) := by
  obtain ⟨blocks, tail, rfl, htail⟩ := exists_blocks bytes
  obtain ⟨pending, done⟩ := b
  obtain rfl : pending = [] := h.pending_eq.symm.trans hpending
  rw [update_blocks_append f blocks done tail htail, Buffer.takeBlocks?_eq f s blocks tail htail,
    hpending]
  refine ⟨_, rfl, rfl, htail, ?_⟩
  rw [doneBytes_append, h.output_eq]

/-- A piece leaves a buffer beside the bytes, whether the block that waits stays short, is completed,
or there is none. -/
theorem Tracks.exists_update? (h : Tracks s b) (bytes : Bytes) :
    ∃ s', update? f s bytes = some s' ∧ Tracks s' (update f b bytes) := by
  have hroom := h.pending_lt
  by_cases hempty : s.pending = []
  · rw [update?, if_pos (List.isEmpty_iff.mpr hempty)]
    exact h.exists_takeBlocks? hempty bytes
  rw [update?, if_neg (mt List.isEmpty_iff.mp hempty), if_pos hroom.le]
  obtain ⟨pending, done⟩ := b
  obtain rfl : s.pending = pending := h.pending_eq
  by_cases hshort : s.pending.length + bytes.length < 16
  · have hall : min (16 - s.pending.length) bytes.length = bytes.length := by omega
    dsimp only
    rw [hall, List.take_length, List.length_append, if_pos hshort,
      update_of_short f s.pending bytes done hshort]
    refine ⟨_, rfl, rfl, ?_, h.output_eq⟩
    rwa [List.length_append]
  · -- the piece is the bytes that complete the block, and more that come when no block waits
    obtain ⟨front, back, rfl, hfront⟩ :
        ∃ front back, bytes = front ++ back ∧ front.length = 16 - s.pending.length := by
      refine ⟨_, _, (List.take_append_drop (16 - s.pending.length) bytes).symm, ?_⟩
      rw [List.length_take]
      omega
    have hcount : min (16 - s.pending.length) (front ++ back).length = front.length := by
      rw [List.length_append]
      omega
    have hfull : (s.pending ++ front).length = 16 := by
      rw [List.length_append]
      omega
    obtain ⟨full, hblock⟩ : ∃ full : Block, full.toList = s.pending ++ front :=
      ⟨⟨(s.pending ++ front).toArray, hfull⟩, rfl⟩
    have hnext : Tracks ⟨[], s.output ++ (f full).toList⟩ ⟨[], f full :: done⟩ := by
      refine ⟨rfl, Nat.zero_lt_succ _, ?_⟩
      rw [doneBytes_cons, h.output_eq]
    dsimp only
    rw [hcount, List.take_left, List.drop_left, hfull, if_neg (lt_irrefl 16), ← hblock,
      Buffer.process?_toList, update_append, update_complete done hroom hblock]
    exact hnext.exists_takeBlocks? rfl back

/-- No piece is refused, and after all of them the buffer is beside the whole byte string. -/
theorem Tracks.exists_feed? (h : Tracks s b) (pieces : List Bytes) :
    ∃ s', Buffer.feed? f s pieces = some s' ∧ Tracks s' (update f b pieces.flatten) := by
  induction pieces generalizing s b with
  | nil => exact ⟨s, rfl, h⟩
  | cons piece rest ih =>
    obtain ⟨next, hnext, htracks⟩ := h.exists_update? piece
    obtain ⟨s', hs', hend⟩ := ih htracks
    refine ⟨s', ?_, ?_⟩
    · rw [Buffer.feed?, List.foldlM_cons, hnext]
      exact hs'
    · rwa [List.flatten_cons, update_append]

theorem Tracks.finish_eq (h : Tracks s b) : s.finish = b.finish := by
  rw [Buffer.finish, finish, h.pending_eq, h.output_eq, doneBytes]

end Step

section Pieces

variable (f : Block → Block)

/-- What comes out when a byte string is taken in pieces. -/
def passed (pieces : List Bytes) : Option (Except Error Bytes) :=
  (Buffer.feed? f {} pieces).map Buffer.finish

/-- The pieces give what the whole byte string gives. -/
theorem passed_eq (pieces : List Bytes) : passed f pieces = some (apply f pieces.flatten) := by
  have hstart : Tracks {} {} := ⟨rfl, Nat.zero_lt_succ _, rfl⟩
  obtain ⟨s, hs, htracks⟩ := hstart.exists_feed? (f := f) pieces
  rw [passed, hs, Option.map_some, htracks.finish_eq]
  rfl

theorem apply_eq_error {bytes : Bytes} (h : bytes.length % 16 ≠ 0) :
    apply f bytes = .error .invalidParameter := by
  obtain ⟨blocks, tail, rfl, htail⟩ := exists_blocks bytes
  have hpart : ¬ tail.isEmpty = true := by
    rw [List.isEmpty_iff]
    rintro rfl
    rw [List.append_nil, length_flatMap_toList] at h
    exact h (Nat.mul_mod_right _ _)
  rw [apply_blocks_append f blocks tail htail, if_neg hpart]

end Pieces

end Blockwise

/-- The two ways through a cipher. -/
inductive Direction where
  | encrypt
  | decrypt
deriving DecidableEq

namespace Direction

def reverse : Direction → Direction
  | encrypt => decrypt
  | decrypt => encrypt

def pass (key : Digest) : Direction → Block → Block
  | encrypt => (Aes.Key.ofBytes key.bytes).encrypt
  | decrypt => (Aes.Key.ofBytes key.bytes).decrypt

theorem pass_reverse (key : Digest) (direction : Direction) (b : Block) :
    direction.reverse.pass key (direction.pass key b) = b := by
  cases direction with
  | encrypt => exact (Aes.Key.ofBytes key.bytes).decrypt_encrypt b
  | decrypt => exact (Aes.Key.ofBytes key.bytes).encrypt_decrypt b

end Direction

namespace Blockwise

/-- A byte string may come in any pieces, and none of them is refused. It comes out if it is a row of
whole blocks, each of them passed through the cipher in its place, and otherwise it is an error.
What came out goes back the other way, in any other pieces. -/
theorem pieces_exact (key : Digest) (direction : Direction) (pieces : List Bytes) :
    passed (direction.pass key) pieces = some (apply (direction.pass key) pieces.flatten) ∧
      ((∃ out, passed (direction.pass key) pieces = some (.ok out)) ↔
        pieces.flatten.length % 16 = 0) ∧
      (pieces.flatten.length % 16 ≠ 0 →
        passed (direction.pass key) pieces = some (.error .invalidParameter)) ∧
      ∀ out, passed (direction.pass key) pieces = some (.ok out) →
        (∃ blocks : List Block, pieces.flatten = blocks.flatMap Vector.toList ∧
          out = (blocks.map (direction.pass key)).flatMap Vector.toList) ∧
        ∀ pieces' : List Bytes, pieces'.flatten = out →
          passed (direction.reverse.pass key) pieces' = some (.ok pieces.flatten) := by
  simp only [passed_eq, Option.some.injEq]
  refine ⟨trivial, exists_apply_iff _ _, apply_eq_error _, fun out hout => ?_⟩
  refine ⟨(apply_eq_ok_iff _).mp hout, ?_⟩
  rintro pieces' rfl
  exact apply_of_inverse (direction.pass_reverse key) hout

/-- Two blocks in three pieces, one of them empty, come back from two pieces that are cut elsewhere;
half a block more is refused. -/
theorem pieces_exact_sample :
    let pass (direction : Direction) := passed (direction.pass .zero)
    let first : Bytes := .replicate 5 7
    let second : Bytes := .replicate 27 9
    ((first ++ second).length % 16 = 0 ∧ ∃ out, pass .encrypt [first, [], second] = some (.ok out) ∧
        pass .decrypt [out.take 20, out.drop 20] = some (.ok (first ++ second))) ∧
      (first.length % 16 ≠ 0 ∧ pass .encrypt [first] = some (.error .invalidParameter)) := by
  intro pass first second
  have hwhole : (first ++ second).length % 16 = 0 := by decide
  have hpart : first.length % 16 ≠ 0 := by decide
  obtain ⟨-, hok, -, hback⟩ := pieces_exact .zero .encrypt [first, [], second]
  obtain ⟨out, hout⟩ := hok.mpr hwhole
  obtain ⟨-, hreturn⟩ := hback out hout
  obtain ⟨-, -, hrefused, -⟩ := pieces_exact .zero .encrypt [first]
  refine ⟨⟨hwhole, out, hout, hreturn [out.take 20, out.drop 20] ?_⟩, hpart, hrefused hpart⟩
  rw [List.flatten_cons, List.flatten_cons, List.flatten_nil, List.append_nil,
    List.take_append_drop]

end Blockwise

end Signet
