import Mathlib
import Signet.Cipher.Aes

/-! Deciphering a block undoes enciphering it under the same key: each layer of a round is undone by
the layer that stands beside it. What is not algebra over the bytes of a block is a check of all 256
bytes. Main statements: `Key.decrypt_encrypt` and `Key.encrypt_decrypt`. -/
namespace Signet.Aes

theorem forall_byte {P : UInt8 → Prop} (h : ∀ i < 256, P (.ofNat i)) (b : UInt8) : P b := by
  have hb := h b.toNat b.toNat_lt
  rwa [UInt8.ofNat_toNat] at hb

/-- What doubling adds when the highest bit is lost. -/
def carry (b : UInt8) : UInt8 := if b &&& 0x80 = 0 then 0 else 0x1B

theorem double_eq (b : UInt8) : double b = (b <<< 1) ^^^ carry b := by
  rw [double, carry]
  split
  · rw [UInt8.xor_zero]
  · rfl

theorem carry_xor (a b : UInt8) : carry (a ^^^ b) = carry a ^^^ carry b := by
  have htop : ∀ x : UInt8, x &&& 0x80 = 0 ∨ x &&& 0x80 = 0x80 := forall_byte (by decide +kernel)
  have hsplit : (a ^^^ b) &&& 0x80 = (a &&& 0x80) ^^^ (b &&& 0x80) := by
    apply UInt8.toBitVec_inj.mp
    apply BitVec.eq_of_getLsbD_eq
    intro i _
    simp only [UInt8.toBitVec_and, UInt8.toBitVec_xor, BitVec.getLsbD_and, BitVec.getLsbD_xor,
      Bool.and_xor_distrib_right]
  rw [carry, carry, carry, hsplit]
  rcases htop a with ha | ha <;> rcases htop b with hb | hb <;> rw [ha, hb] <;> rfl

theorem double_xor (a b : UInt8) : double (a ^^^ b) = double a ^^^ double b := by
  rw [double_eq, double_eq, double_eq, carry_xor, UInt8.shiftLeft_xor]
  ac_rfl

theorem product_xor (m a b : UInt8) : product m (a ^^^ b) = product m a ^^^ product m b := by
  rw [product, product, product]
  generalize 8 = count
  induction count generalizing m a b with
  | zero => exact UInt8.xor_zero.symm
  | succ count ih =>
    rw [productUp, productUp, productUp, double_xor, ih]
    split
    · rw [UInt8.zero_xor, UInt8.zero_xor, UInt8.zero_xor]
    · ac_rfl

/-! Products on the numbers of the bytes, in operations that are quick to evaluate. -/

def doubleNat (b : ℕ) : ℕ := 2 * b ^^^ 0x11B * (b / 128)

def productNat : ℕ → ℕ → ℕ → ℕ
  | 0, _, _ => 0
  | count + 1, a, b => a % 2 * b ^^^ productNat count (a / 2) (doubleNat b)

def inverseNat (b : ℕ) : ℕ :=
  let b2 := productNat 8 b b
  let b3 := productNat 8 b2 b
  let b12 := Nat.repeat (fun x => productNat 8 x x) 2 b3
  let b15 := productNat 8 b12 b3
  let b240 := Nat.repeat (fun x => productNat 8 x x) 4 b15
  productNat 8 (productNat 8 b240 b12) b2

/-- An entry of a product of matrices: a row of the one that unmixes, and a column of the other. -/
def entryNat (m0 m1 m2 m3 x : ℕ) : ℕ :=
  productNat 8 14 (productNat 8 m0 x) ^^^ productNat 8 11 (productNat 8 m1 x) ^^^
    productNat 8 13 (productNat 8 m2 x) ^^^ productNat 8 9 (productNat 8 m3 x)

theorem toNat_double : ∀ b : UInt8, (double b).toNat = doubleNat b.toNat :=
  forall_byte (by decide +kernel)

theorem toNat_productUp (count : ℕ) (a b : UInt8) :
    (productUp count a b).toNat = productNat count a.toNat b.toNat := by
  induction count generalizing a b with
  | zero => rfl
  | succ count ih =>
    have hlow : (a &&& 1).toNat = a.toNat % 2 := by
      rw [UInt8.toNat_and]
      exact Nat.and_one_is_mod _
    have hhalf : (a >>> 1).toNat = a.toNat / 2 := by
      rw [UInt8.toNat_shiftRight]
      exact Nat.shiftRight_eq_div_pow _ _
    have hterm : (if a &&& 1 = 0 then 0 else b).toNat = a.toNat % 2 * b.toNat := by
      rcases Nat.mod_two_eq_zero_or_one a.toNat with h | h
      · rw [h] at hlow
        rw [if_pos (UInt8.toNat_inj.mp hlow), h, zero_mul]
        rfl
      · rw [h] at hlow
        rw [if_neg (fun hzero => by rw [hzero] at hlow; cases hlow), h, one_mul]
    rw [productUp, UInt8.toNat_xor, ih, hterm, hhalf, toNat_double, productNat]

theorem toNat_inverse (b : UInt8) : (inverse b).toNat = inverseNat b.toNat := by
  simp only [inverse, inverseNat, Nat.repeat, product, toNat_productUp]

theorem inverse_inverse (b : UInt8) : inverse (inverse b) = b := by
  have h : ∀ i < 256, inverseNat (inverseNat i) = i := by decide +kernel
  apply UInt8.toNat_inj.mp
  rw [toNat_inverse, toNat_inverse, h b.toNat b.toNat_lt]

theorem desubstitute_substitute (b : UInt8) : desubstitute (substitute b) = b := by
  have hturns : ∀ x : UInt8,
      let y := x ^^^ turn x 1 ^^^ turn x 2 ^^^ turn x 3 ^^^ turn x 4 ^^^ 0x63
      turn y 1 ^^^ turn y 3 ^^^ turn y 6 ^^^ 0x05 = x := forall_byte (by decide +kernel)
  have hsub (x : UInt8) : substitute x = substitution x := by
    rw [substitute, substitutions, Vector.get_ofFn, UInt8.ofNat_toNat]
  have hdesub (x : UInt8) : desubstitute x = desubstitution x := by
    rw [desubstitute, desubstitutions, Vector.get_ofFn, UInt8.ofNat_toNat]
  rw [hsub, hdesub, desubstitution, substitution, hturns, inverse_inverse]

namespace Column

theorem add_add (c d : Column) : (c.add d).add d = c := by
  simp only [add, UInt8.xor_assoc, UInt8.xor_self, UInt8.xor_zero]

theorem desubstitute_substitute (c : Column) : (c.map substitute).map desubstitute = c := by
  simp only [map, Aes.desubstitute_substitute]

/-- One byte of the product of a column with a cyclic matrix. -/
def row (m0 m1 m2 m3 x0 x1 x2 x3 : UInt8) : UInt8 :=
  product m0 x0 ^^^ product m1 x1 ^^^ product m2 x2 ^^^ product m3 x3

/-- The entries in the first row of the product of the two matrices: one, and three times zero. -/
theorem entries (x : UInt8) :
    product 14 (product 2 x) ^^^ product 11 (product 1 x) ^^^ product 13 (product 1 x) ^^^
        product 9 (product 3 x) = x ∧
      product 14 (product 3 x) ^^^ product 11 (product 2 x) ^^^ product 13 (product 1 x) ^^^
        product 9 (product 1 x) = 0 ∧
      product 14 (product 1 x) ^^^ product 11 (product 3 x) ^^^ product 13 (product 2 x) ^^^
        product 9 (product 1 x) = 0 ∧
      product 14 (product 1 x) ^^^ product 11 (product 1 x) ^^^ product 13 (product 3 x) ^^^
        product 9 (product 2 x) = 0 := by
  have hnat : ∀ i < 256,
      entryNat 2 1 1 3 i = i ∧ entryNat 3 2 1 1 i = 0 ∧ entryNat 1 3 2 1 i = 0 ∧
        entryNat 1 1 3 2 i = 0 := by decide +kernel
  simp only [← UInt8.toNat_inj, UInt8.toNat_xor, product, toNat_productUp]
  exact hnat x.toNat x.toNat_lt

/-- The two matrices are inverse, and so in each row. -/
theorem row_row (x0 x1 x2 x3 : UInt8) :
    row 14 11 13 9 (row 2 3 1 1 x0 x1 x2 x3) (row 2 3 1 1 x1 x2 x3 x0) (row 2 3 1 1 x2 x3 x0 x1)
      (row 2 3 1 1 x3 x0 x1 x2) = x0 := by
  obtain ⟨h0, -⟩ := entries x0
  obtain ⟨-, h1, -⟩ := entries x1
  obtain ⟨-, -, h2, -⟩ := entries x2
  obtain ⟨-, -, -, h3⟩ := entries x3
  calc row 14 11 13 9 (row 2 3 1 1 x0 x1 x2 x3) (row 2 3 1 1 x1 x2 x3 x0)
        (row 2 3 1 1 x2 x3 x0 x1) (row 2 3 1 1 x3 x0 x1 x2)
      = (product 14 (product 2 x0) ^^^ product 11 (product 1 x0) ^^^ product 13 (product 1 x0) ^^^
          product 9 (product 3 x0)) ^^^
        (product 14 (product 3 x1) ^^^ product 11 (product 2 x1) ^^^ product 13 (product 1 x1) ^^^
          product 9 (product 1 x1)) ^^^
        (product 14 (product 1 x2) ^^^ product 11 (product 3 x2) ^^^ product 13 (product 2 x2) ^^^
          product 9 (product 1 x2)) ^^^
        (product 14 (product 1 x3) ^^^ product 11 (product 1 x3) ^^^ product 13 (product 3 x3) ^^^
          product 9 (product 2 x3)) := by
        simp only [row, product_xor]
        ac_rfl
    _ = x0 := by rw [h0, h1, h2, h3, UInt8.xor_zero, UInt8.xor_zero, UInt8.xor_zero]

theorem unmix_mix (c : Column) : c.mix.unmix = c := by
  cases c with
  | mk b0 b1 b2 b3 =>
    rw [Column.mk.injEq]
    exact ⟨row_row b0 b1 b2 b3, row_row b1 b2 b3 b0, row_row b2 b3 b0 b1, row_row b3 b0 b1 b2⟩

end Column

namespace State

theorem add_add (s k : State) : (s.add k).add k = s := by
  simp only [add, Column.add_add]

theorem unmix_mix (s : State) : (s.map Column.mix).map Column.unmix = s := by
  simp only [map, Column.unmix_mix]

theorem deconfuse_confuse (s : State) : s.confuse.deconfuse = s := by
  have hrows (t : State) : t.shiftRows.unshiftRows = t := rfl
  rw [deconfuse, confuse, hrows]
  simp only [map, Column.desubstitute_substitute]

theorem ofBlock_toBlock (s : State) : ofBlock s.toBlock = s := rfl

theorem toBlock_ofBlock (b : Block) : (ofBlock b).toBlock = b := by
  apply Vector.ext
  intro i hi
  interval_cases i <;> rfl

end State

theorem decipher_encipher (keys : List State) (s : State) :
    decipher keys (encipher keys s) = s := by
  induction keys generalizing s with
  | nil => rfl
  | cons key rest ih =>
    cases rest with
    | nil =>
      change ((s.confuse.add key).add key).deconfuse = s
      rw [State.add_add, State.deconfuse_confuse]
    | cons next rest =>
      change (((decipher (next :: rest) (encipher (next :: rest)
        ((s.confuse.map Column.mix).add key))).add key).map Column.unmix).deconfuse = s
      rw [ih, State.add_add, State.unmix_mix, State.deconfuse_confuse]

/-- Under one key, whatever its rounds are, deciphering gives the block back. -/
theorem Key.decrypt_encrypt (k : Key) (b : Block) : k.decrypt (k.encrypt b) = b := by
  rw [decrypt, encrypt, State.ofBlock_toBlock, decipher_encipher, State.add_add,
    State.toBlock_ofBlock]

/-- There are finitely many blocks, so that what is undone on one side is undone on the other. -/
theorem Key.encrypt_decrypt (k : Key) (b : Block) : k.encrypt (k.decrypt b) = b := by
  have hinverse : Function.LeftInverse k.decrypt k.encrypt := k.decrypt_encrypt
  have hfinite : Finite Block :=
    Finite.of_injective (fun (b : Block) (i : Fin 16) => b[i].toFin) (by
      intro a b h
      apply Vector.ext
      intro i hi
      exact UInt8.toFin_inj.mp (congrFun h ⟨i, hi⟩))
  have hsurjective := Finite.surjective_of_injective hinverse.injective
  exact hinverse.rightInverse_of_surjective hsurjective b

end Signet.Aes
