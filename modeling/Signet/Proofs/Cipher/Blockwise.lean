import Mathlib
import Signet.Cipher.Blockwise
import Signet.Proofs.Cipher.Aes

/-! A byte string goes through a function on blocks when it is a row of whole blocks, and comes out
as the row of their images. Main statements: `apply_eq_ok_iff`, `exists_apply_iff`,
`decrypt_encrypt` and `encrypt_decrypt`. -/
namespace Signet

namespace Blockwise

variable (f : Block → Block)

/-- Bytes that do not complete a block are kept for later. -/
theorem update_of_short (pending bytes : Bytes) (finished : List Block)
    (h : pending.length + bytes.length < 16) :
    update f ⟨pending, finished⟩ bytes = ⟨pending ++ bytes, finished⟩ := by
  induction bytes generalizing pending with
  | nil =>
    rw [List.append_nil]
    rfl
  | cons b rest ih =>
    rw [List.length_cons] at h
    have hlength : (pending ++ [b]).length = pending.length + 1 := by
      rw [List.length_append, List.length_singleton]
    have hstep : absorb f ⟨pending, finished⟩ b = ⟨pending ++ [b], finished⟩ :=
      dif_neg (show ¬ (pending ++ [b]).length = 16 by omega)
    have hrest := ih (pending ++ [b]) (by omega)
    rw [List.append_assoc, List.singleton_append] at hrest
    rw [update, List.foldl_cons, hstep]
    exact hrest

theorem update_block (done : List Block) (b : Block) :
    update f ⟨[], done⟩ b.toList = ⟨[], f b :: done⟩ := by
  have hlength : b.toList.length = 16 := Vector.length_toList ..
  obtain ⟨front, last, hsplit⟩ : ∃ front last, b.toList = front ++ [last] := by
    refine ⟨_, _, (List.dropLast_append_getLast (l := b.toList) ?_).symm⟩
    rw [← List.length_pos_iff, hlength]
    norm_num
  have hfront : front.length = 15 := by
    rw [hsplit, List.length_append, List.length_singleton] at hlength
    omega
  -- the last byte is the one that completes the block
  have hstep : absorb f ⟨front, done⟩ last = ⟨[], f b :: done⟩ := by
    have hfull : (front ++ [last]).length = 16 := by rw [← hsplit, hlength]
    have hblock : (⟨(front ++ [last]).toArray, hfull⟩ : Block) = b := by
      apply Vector.toList_inj.mp
      rw [hsplit]
      rfl
    rw [absorb, dif_pos hfull, hblock]
  rw [hsplit, update, List.foldl_append]
  have hshort := update_of_short f [] front done (by rw [hfront]; norm_num)
  rw [update] at hshort
  rw [hshort]
  exact hstep

theorem update_blocks (blocks done : List Block) :
    update f ⟨[], done⟩ (blocks.flatMap Vector.toList) = ⟨[], (blocks.map f).reverse ++ done⟩ := by
  induction blocks generalizing done with
  | nil => rfl
  | cons b rest ih =>
    have hfirst := update_block f done b
    rw [update] at hfirst
    rw [List.flatMap_cons, update, List.foldl_append, hfirst]
    refine (ih (f b :: done)).trans ?_
    rw [List.map_cons, List.reverse_cons, List.append_assoc]
    rfl

theorem length_flatMap_toList (blocks : List Block) :
    (blocks.flatMap Vector.toList).length = 16 * blocks.length := by
  induction blocks with
  | nil => rfl
  | cons b rest ih =>
    rw [List.flatMap_cons, List.length_append, ih, Vector.length_toList, List.length_cons]
    ring

/-- Every byte string is a row of blocks and a part of a block. -/
theorem exists_blocks (bytes : Bytes) :
    ∃ (blocks : List Block) (tail : Bytes), bytes = blocks.flatMap Vector.toList ++ tail ∧
      tail.length < 16 := by
  by_cases h : bytes.length < 16
  · exact ⟨[], bytes, rfl, h⟩
  · obtain ⟨blocks, tail, hrest, htail⟩ := exists_blocks (bytes.drop 16)
    have hlength : (bytes.take 16).length = 16 := by
      rw [List.length_take]
      omega
    refine ⟨⟨(bytes.take 16).toArray, hlength⟩ :: blocks, tail, ?_, htail⟩
    rw [List.flatMap_cons, List.append_assoc, ← hrest]
    exact (List.take_append_drop 16 bytes).symm
termination_by bytes.length
decreasing_by
  rw [List.length_drop]
  omega

theorem update_append (s : Blockwise) (front back : Bytes) :
    update f s (front ++ back) = update f (update f s front) back := List.foldl_append

/-- Whole blocks, and a part of one that is kept for later. -/
theorem update_blocks_append (blocks done : List Block) (tail : Bytes) (h : tail.length < 16) :
    update f ⟨[], done⟩ (blocks.flatMap Vector.toList ++ tail) =
      ⟨tail, (blocks.map f).reverse ++ done⟩ := by
  rw [update_append, update_blocks]
  exact update_of_short f [] tail _ (by rwa [List.length_nil, Nat.zero_add])

theorem apply_blocks_append (blocks : List Block) (tail : Bytes) (h : tail.length < 16) :
    apply f (blocks.flatMap Vector.toList ++ tail) =
      if tail.isEmpty then .ok ((blocks.map f).flatMap Vector.toList)
      else .error .invalidParameter := by
  rw [apply, update_blocks_append f blocks [] tail h, finish, List.append_nil]
  dsimp only
  rw [List.reverse_reverse]

theorem apply_eq_ok_iff {bytes out : Bytes} :
    apply f bytes = .ok out ↔ ∃ blocks : List Block,
      bytes = blocks.flatMap Vector.toList ∧ out = (blocks.map f).flatMap Vector.toList := by
  constructor
  · intro h
    obtain ⟨blocks, tail, rfl, htail⟩ := exists_blocks bytes
    rw [apply_blocks_append f blocks tail htail] at h
    split at h
    · next hempty =>
      rw [List.isEmpty_iff] at hempty
      refine ⟨blocks, ?_, (Except.ok.inj h).symm⟩
      rw [hempty, List.append_nil]
    · cases h
  · rintro ⟨blocks, rfl, rfl⟩
    have h := apply_blocks_append f blocks [] (by decide)
    rwa [List.append_nil] at h

theorem exists_apply_iff (bytes : Bytes) :
    (∃ out, apply f bytes = .ok out) ↔ bytes.length % 16 = 0 := by
  simp only [apply_eq_ok_iff]
  constructor
  · rintro ⟨-, blocks, rfl, -⟩
    rw [length_flatMap_toList]
    exact Nat.mul_mod_right _ _
  · intro h
    obtain ⟨blocks, tail, rfl, htail⟩ := exists_blocks bytes
    rw [List.length_append, length_flatMap_toList] at h
    obtain rfl : tail = [] := List.length_eq_zero_iff.mp (by omega)
    exact ⟨_, blocks, List.append_nil _, rfl⟩

variable {f}

theorem length_eq_of_apply {bytes out : Bytes} (h : apply f bytes = .ok out) :
    out.length = bytes.length := by
  obtain ⟨blocks, rfl, rfl⟩ := (apply_eq_ok_iff f).mp h
  rw [length_flatMap_toList, length_flatMap_toList, List.length_map]

/-- A function that gives every block back gives every row of blocks back. -/
theorem apply_of_inverse {g : Block → Block} (hinverse : ∀ b, g (f b) = b) {bytes out : Bytes}
    (h : apply f bytes = .ok out) : apply g out = .ok bytes := by
  obtain ⟨blocks, rfl, rfl⟩ := (apply_eq_ok_iff f).mp h
  refine (apply_eq_ok_iff g).mpr ⟨blocks.map f, rfl, ?_⟩
  have hmap : blocks.map (g ∘ f) = blocks.map id := List.map_congr_left fun b _ => hinverse b
  rw [List.map_map, hmap, List.map_id]

end Blockwise

theorem decrypt_encrypt {key : Digest} {bytes out : Bytes} (h : encrypt key bytes = .ok out) :
    decrypt key out = .ok bytes :=
  Blockwise.apply_of_inverse (Aes.Key.ofBytes key.bytes).decrypt_encrypt h

theorem encrypt_decrypt {key : Digest} {bytes out : Bytes} (h : decrypt key bytes = .ok out) :
    encrypt key out = .ok bytes :=
  Blockwise.apply_of_inverse (Aes.Key.ofBytes key.bytes).encrypt_decrypt h

end Signet
