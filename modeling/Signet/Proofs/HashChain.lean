import Mathlib
import Signet.HashChain

/-! A chain of digests as a stream. Behind a pool stands its digest, behind that the digest of the
digest, and so on, sixteen bytes each. A fill takes bytes off the front of this stream and moves the
pool on by whole digests, so that what is left of the last one is lost: fills join up to one fill
where none of them but the last breaks a digest off. A salt puts another pool in the place of this
one. Main statements: `pool_absorb`, `fill_eq`, `fillOver_eq`, `pool_fills` and `stream_law`. -/
namespace Signet.HashChain

section Stream

variable (hash : Bytes → Block) (pool : Block)

/-- What a pool is replaced by. -/
def nextPool : Block := hash pool.toList

/-- The byte at a place of the stream behind a pool. -/
def streamByte (place : ℕ) : UInt8 :=
  ((nextPool hash)^[place / 16 + 1] pool).get ⟨place % 16, Nat.mod_lt place (by norm_num)⟩

/-- The first `length` bytes of the stream behind a pool. -/
def stream (length : ℕ) : Bytes := (List.range length).map (streamByte hash pool)

@[simp] theorem length_stream (length : ℕ) : (stream hash pool length).length = length := by
  simp [stream]

/-- Behind `count` digests the stream goes on as it does behind the last of them. -/
theorem streamByte_add (count place : ℕ) :
    streamByte hash pool (16 * count + place) =
      streamByte hash ((nextPool hash)^[count] pool) place := by
  have hdigest : (16 * count + place) / 16 + 1 = place / 16 + 1 + count := by omega
  have hbyte : (16 * count + place) % 16 = place % 16 := Nat.mul_add_mod 16 count place
  simp only [streamByte, hdigest, hbyte, Function.iterate_add_apply]

theorem stream_add (count length : ℕ) :
    stream hash pool (16 * count + length) =
      stream hash pool (16 * count) ++ stream hash ((nextPool hash)^[count] pool) length := by
  rw [stream, List.range_add, List.map_append, List.map_map]
  congr 1
  apply List.map_congr_left
  intro place _
  exact streamByte_add hash pool count place

theorem stream_sixteen : stream hash pool 16 = (nextPool hash pool).toList := by
  apply List.ext_getElem
  · simp
  · intro place hplace _
    rw [length_stream] at hplace
    simp only [stream, streamByte, List.getElem_map, List.getElem_range, Nat.div_eq_of_lt hplace,
      Nat.mod_eq_of_lt hplace]
    rfl

theorem take_stream {length whole : ℕ} (h : length ≤ whole) :
    (stream hash pool whole).take length = stream hash pool length := by
  rw [stream, ← List.map_take, List.take_range, min_eq_left h, stream]

/-- The front of the next digest, and the stream behind this digest if that is not enough. -/
theorem stream_eq_append (length : ℕ) :
    stream hash pool length =
      (nextPool hash pool).toList.take length ++
        stream hash (nextPool hash pool) (length - 16) := by
  rw [← stream_sixteen]
  rcases le_total length 16 with hshort | hlong
  · rw [take_stream hash pool hshort, Nat.sub_eq_zero_of_le hshort]
    exact (List.append_nil _).symm
  · obtain ⟨more, rfl⟩ := Nat.exists_eq_add_of_le hlong
    rw [List.take_of_length_le (by simp), Nat.add_sub_cancel_left]
    exact stream_add hash pool 1 more

end Stream

variable {hash : Bytes → Block} (c : HashChain hash)

@[simp] theorem absorb_nil : c.absorb [] = c := rfl

/-- Behind a salt the pool is the digest of the pool before it and the salt. -/
theorem pool_absorb {salt : Bytes} (hsalt : salt ≠ []) :
    (c.absorb salt).pool = hash (c.pool.toList ++ salt) := by
  rw [absorb, if_neg (mt List.isEmpty_iff.mp hsalt)]

theorem pool_ofSalt {salt : Bytes} (hsalt : salt ≠ []) :
    (ofSalt salt : HashChain hash).pool = hash (Bytes.zeros 16 ++ salt) :=
  pool_absorb empty hsalt

theorem blocks_eq (count : ℕ) :
    blocks count c = (stream hash c.pool (16 * count), ⟨(nextPool hash)^[count] c.pool⟩) := by
  induction count generalizing c with
  | zero => rfl
  | succ count ih =>
    have hstream := stream_add hash c.pool 1 (16 * count)
    rw [mul_one, stream_sixteen] at hstream
    rw [blocks, ih, show 16 * (count + 1) = 16 + 16 * count by ring, hstream]
    rfl

/-- A fill gives the first bytes of the stream, and takes as many digests as hold them. -/
theorem fill_eq (length : ℕ) :
    c.fill length =
      (stream hash c.pool length, ⟨(nextPool hash)^[length ⌈/⌉ 16] c.pool⟩) := by
  have henough : length ≤ 16 * ((length + 15) / 16) := by omega
  rw [fill, blocks_eq, Nat.ceilDiv_eq_add_pred_div]
  exact congrArg (·, _) (take_stream hash c.pool henough)

theorem length_fill (length : ℕ) : (c.fill length).1.length = length := by
  simp [fill_eq]

/-- Writes over a buffer in pieces of sixteen bytes, of which the last may be shorter. Each piece
takes a step, and as much of the pool as it has room for. -/
def fillOver (c : HashChain hash) : Bytes → Bytes × HashChain hash
  | [] => ([], c)
  | b :: rest =>
    let next := c.step
    let (written, last) := next.fillOver (rest.drop 15)
    (next.pool.toList.take ((b :: rest).take 16).length ++ written, last)
termination_by buffer => buffer.length
decreasing_by
  rw [List.length_drop, List.length_cons]
  omega

/-- What stood in the buffer does not matter, and neither do its pieces. -/
theorem fillOver_eq (buffer : Bytes) : c.fillOver buffer = c.fill buffer.length := by
  fun_induction fillOver c buffer with
  | case1 => rfl
  | case2 c b rest next written last hrest ih =>
    -- the first piece is a whole digest, or all that there is
    have hpiece : next.pool.toList.take ((b :: rest).take 16).length =
        next.pool.toList.take (rest.length + 1) := by
      rw [List.length_take, List.length_cons, List.take_eq_take_iff, Vector.length_toList]
      omega
    have hsteps : (rest.length + 1) ⌈/⌉ 16 = (rest.length - 15) ⌈/⌉ 16 + 1 := by
      simp only [Nat.ceilDiv_eq_add_pred_div]
      omega
    rw [hrest, fill_eq, List.length_drop, Prod.mk.injEq] at ih
    rw [fill_eq, List.length_cons, stream_eq_append, hsteps, hpiece, ih.1, ih.2]
    rfl

/-- Fills of the given lengths, one after the other. -/
def fills : HashChain hash → List ℕ → List Bytes × HashChain hash
  | c, [] => ([], c)
  | c, length :: rest =>
    let (bytes, next) := c.fill length
    let (others, last) := next.fills rest
    (bytes :: others, last)

/-- Every fill takes its own digests, whatever the ones before have left over. -/
theorem pool_fills (lengths : List ℕ) :
    (c.fills lengths).2.pool = (nextPool hash)^[(lengths.map (· ⌈/⌉ 16)).sum] c.pool := by
  induction lengths generalizing c with
  | nil => rfl
  | cons length rest ih =>
    rw [List.map_cons, List.sum_cons, add_comm, Function.iterate_add_apply]
    change ((c.fill length).2.fills rest).2.pool = _
    rw [ih, fill_eq]

/-- Where no fill but the last breaks a digest off, the next one goes on where it ended. -/
theorem flatten_fills {lengths : List ℕ} (h : ∀ length ∈ lengths.dropLast, 16 ∣ length) :
    (c.fills lengths).1.flatten = stream hash c.pool lengths.sum := by
  induction lengths generalizing c with
  | nil => rfl
  | cons length rest ih =>
    cases rest with
    | nil => simp [fills, fill_eq]
    | cons second rest =>
      obtain ⟨hfirst, hrest⟩ := List.forall_mem_cons.mp h
      obtain ⟨count, rfl⟩ := hfirst
      have hcount : (16 * count) ⌈/⌉ 16 = count := smul_ceilDiv (by norm_num) count
      have hnext := ih (c.fill (16 * count)).2 hrest
      rw [fill_eq, hcount] at hnext
      rw [List.sum_cons, stream_add, ← hnext, fills, fill_eq, hcount, List.flatten_cons]

/-- The law of the stream, for any digest and any pool. A fill gives the first bytes of the digests
that follow one another behind the pool, and moves the pool on by as many as it needs; written over
a buffer piece by piece it is the same. A row of fills moves the pool on by as many digests as they
need one by one, and gives what one fill of their whole length gives as long as every length but the
last is a number of whole digests. -/
theorem stream_law (hash : Bytes → Block) (c : HashChain hash) :
    (∀ length, (c.fill length).1 = stream hash c.pool length ∧
      (c.fill length).2.pool = (nextPool hash)^[length ⌈/⌉ 16] c.pool) ∧
    (∀ buffer : Bytes, c.fillOver buffer = c.fill buffer.length) ∧
    ∀ lengths : List ℕ,
      (c.fills lengths).2.pool = (nextPool hash)^[(lengths.map (· ⌈/⌉ 16)).sum] c.pool ∧
      ((∀ length ∈ lengths.dropLast, 16 ∣ length) →
        (c.fills lengths).1.flatten = (c.fill lengths.sum).1) := by
  refine ⟨fun length => ?_, c.fillOver_eq, fun lengths => ⟨c.pool_fills lengths, fun h => ?_⟩⟩
  · rw [fill_eq]
    exact ⟨rfl, rfl⟩
  · rw [c.flatten_fills h, fill_eq]

/-- Two whole digests and a half one behind the empty pool, in three fills and in one. -/
theorem stream_law_sample :
    (∀ length ∈ [16, 16, 8].dropLast, 16 ∣ length) ∧
      ((empty : Md5Chain).fills [16, 16, 8]).1.flatten = ((empty : Md5Chain).fill 40).1 ∧
      ((empty : Md5Chain).fill 40).1 =
        [0x4A, 0xE7, 0x13, 0x36, 0xE4, 0x4B, 0xF9, 0xBF, 0x79, 0xD2, 0x75, 0x2E, 0x23, 0x48, 0x18,
          0xA5, 0x39, 0x8D, 0x01, 0xFD, 0xF7, 0x93, 0x4D, 0x12, 0x92, 0xC2, 0x63, 0xD3, 0x74, 0x77,
          0x8E, 0x1A, 0x79, 0x95, 0x88, 0x60, 0x59, 0xDF, 0x6D, 0xD8] := by
  have hwhole : ∀ length ∈ [16, 16, 8].dropLast, 16 ∣ length := by decide
  obtain ⟨-, -, hfills⟩ := stream_law Md5.digest empty
  exact ⟨hwhole, (hfills [16, 16, 8]).2 hwhole, by decide +kernel⟩

end Signet.HashChain
