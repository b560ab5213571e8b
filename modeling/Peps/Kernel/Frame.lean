import Mathlib.Algebra.Group.Basic
import Mathlib.Order.MinMax
import Peps.Kernel.Kernels

/-!
# What the kernels do to their arguments

A stored intermediate result is read by several CTEs, and each reader passes the stored array
itself to a kernel. So a kernel that writes to an argument changes what the next reader sees.

`keeps_iff_harmless` says for every call of the six kernels exactly when its argument arrays
come back as they were. `relu` and `madd` compute in place and keep their argument only when
there is nothing to compute; the convolutions and `concat_array` leave the number of selected
channels in the caller's dimension word, so only a selection of all channels, or one that is
refused before the word is written, is harmless.

Where every reader keeps its arguments, the readers of one store can be run in any order
(`runReaders_of_harmless`).
-/

namespace Peps

open Lib

/-- One call of an SQL-callable kernel, on arrays or on references to stored ones. -/
inductive KernelCall (β : Type) where
  | relu (input : β)
  | madd (matrix1 matrix2 : β)
  | kfmIm2col (name : Bytes) (input : β) (kernel padding stride : Int)
      (offset : Option (ArrayType Int))
  | kfmIm2colNs (name : Bytes) (input : β)
      (kernel_H kernel_W padding_H padding_W stride : Int) (offset : Option (ArrayType Int))
  | groupKfmIm2col (name : Bytes) (input : β) (kernel padding stride split_num : Int)
  | concatArray (inputs : List β) (offset : Option (ArrayType Int))

namespace KernelCall

variable {α β γ : Type}

/-- The arrays the call is made on. -/
def args : KernelCall β → List β
  | relu input => [input]
  | madd matrix1 matrix2 => [matrix1, matrix2]
  | kfmIm2col _ input .. => [input]
  | kfmIm2colNs _ input .. => [input]
  | groupKfmIm2col _ input .. => [input]
  | concatArray inputs _ => inputs

def map (f : β → γ) : KernelCall β → KernelCall γ
  | relu input => relu (f input)
  | madd matrix1 matrix2 => madd (f matrix1) (f matrix2)
  | kfmIm2col name input kernel padding stride offset =>
      kfmIm2col name (f input) kernel padding stride offset
  | kfmIm2colNs name input kernel_H kernel_W padding_H padding_W stride offset =>
      kfmIm2colNs name (f input) kernel_H kernel_W padding_H padding_W stride offset
  | groupKfmIm2col name input kernel padding stride split_num =>
      groupKfmIm2col name (f input) kernel padding stride split_num
  | concatArray inputs offset => concatArray (inputs.map f) offset

theorem args_map (f : β → γ) (call : KernelCall β) : (call.map f).args = call.args.map f := by
  cases call <;> rfl

def exec [Zero α] [Add α] [Max α] (env : KernelEnv α) : KernelCall (ArrayType α) → Called α
  | relu input => Peps.relu env input
  | madd matrix1 matrix2 => Peps.madd env matrix1 matrix2
  | kfmIm2col name input kernel padding stride offset =>
      Peps.kfmIm2col env name input kernel padding stride offset
  | kfmIm2colNs name input kernel_H kernel_W padding_H padding_W stride offset =>
      Peps.kfmIm2colNs env name input kernel_H kernel_W padding_H padding_W stride offset
  | groupKfmIm2col name input kernel padding stride split_num =>
      Peps.groupKfmIm2col env name input kernel padding stride split_num
  | concatArray inputs offset => Peps.concatArray env inputs offset

end KernelCall

/-- The offset of a convolution is absent, refused, or selects all channels. -/
def OffsetHarmless {α : Type} (input : ArrayType α) (offset : Option (ArrayType Int)) : Prop :=
  ∀ off, offset = some off → off.ndim = 1 → off.dimWord 0 = 2 → 1 ≤ off.elem 0 →
    off.elem 1 ≤ input.dimWord 0 → off.elem 0 ≤ off.elem 1 →
      off.elem 0 = 1 ∧ off.elem 1 = input.dimWord 0

/-- The inputs on which a call leaves its arguments alone. -/
def KernelCall.Harmless {α : Type} [Zero α] [LE α] : KernelCall (ArrayType α) → Prop
  | relu input =>
      ∀ i < (input.dimWord 0 * input.dimWord 1).toNat, ∀ x, input.data[i]? = some x → 0 ≤ x
  | madd matrix1 matrix2 =>
      ∀ i < (matrix1.dimWord 0 * matrix1.dimWord 1).toNat, i < matrix1.data.length →
        matrix2.elem (i : Nat) = 0
  | kfmIm2col _ input _ _ _ offset => OffsetHarmless input offset
  | kfmIm2colNs _ input _ _ _ _ _ offset => OffsetHarmless input offset
  | groupKfmIm2col _ input _ _ _ split_num =>
      split_num = 0 ∨ ¬ split_num ∣ input.dimWord 0 ∨ split_num = 1 ∨ input.dimWord 0 = 0
  | concatArray inputs offset =>
      ∀ first rest off, inputs = first :: rest → offset = some off → 0 < first.ndim →
        off.elem 1 - off.elem 0 + 1 = first.dimWord 0

/-! ## The pieces -/

section Pieces

variable {α : Type}

theorem ArrayType.setDim0_eq_self_iff (a : ArrayType α) (v : Int) :
    a.setDim0 v = a ↔ a.ndim = 0 ∨ v = a.dimWord 0 := by
  obtain ⟨dims, lbs, data, outside, hndim, hlbs⟩ := a
  cases dims with
  | nil => simp [setDim0, ndim]
  | cons d dims => simp [setDim0, ndim, dimWord]

theorem ArrayType.withData_eq_self_iff (a : ArrayType α) (data : List α) :
    a.withData data = a ↔ data = a.data := by
  obtain ⟨dims, lbs, data', outside, hndim, hlbs⟩ := a
  simp [withData]

/-- An array without dimensions has no channel to select. -/
theorem ArrayType.dimWord_of_ndim_zero {a : ArrayType α} (h : a.ndim = 0) (i : Nat) :
    a.dimWord i = 0 := by
  have hd : a.dims = [] := List.eq_nil_of_length_eq_zero h
  have hl : a.lbs = [] := List.eq_nil_of_length_eq_zero (by rw [a.hlbs, hd]; rfl)
  simp [dimWord, hd, hl]

/-- **Selecting channels** keeps the array in the harmless cases only. -/
theorem selectChannels_keeps_iff (input : ArrayType α) (offset : Option (ArrayType Int)) :
    (∀ input' start, selectChannels input offset = .ok (input', start) → input' = input) ↔
      OffsetHarmless input offset := by
  cases offset with
  | none => simp [selectChannels, OffsetHarmless, eq_comm]
  | some off =>
    simp only [selectChannels, guard_ok_iff, OffsetHarmless, Except.ok.injEq, Prod.mk.injEq,
      Option.some.injEq, not_or, not_not, Int.not_lt, Int.not_le]
    constructor
    · rintro h _ rfl hndim hdim hlo hhi hle
      have hsel := h _ _ ⟨⟨hndim, hdim⟩, ⟨by omega, hhi, by omega⟩, rfl, rfl⟩
      rcases (input.setDim0_eq_self_iff _).mp hsel with hzero | hword
      · rw [ArrayType.dimWord_of_ndim_zero hzero] at hhi
        omega
      · omega
    · rintro h input' start ⟨⟨hndim, hdim⟩, ⟨hlo, hhi, hlt⟩, rfl, rfl⟩
      obtain ⟨h0, h1⟩ := h off rfl hndim hdim (by omega) hhi (by omega)
      rw [ArrayType.setDim0_eq_self_iff]
      right
      omega

/-- Both convolutions with an offset argument return the array the selection left. -/
theorem convolution_keeps_iff (input : ArrayType α) (offset : Option (ArrayType Int))
    (body : ArrayType α → Int → Except PgError (ArrayType α)) :
    (match selectChannels input offset with
      | .error e => ((.error e, [input]) : Called α)
      | .ok (input', start) => (body input' start, [input'])).2 = [input] ↔
      OffsetHarmless input offset := by
  rw [← selectChannels_keeps_iff]
  cases h : selectChannels input offset with
  | error e => simp
  | ok sel => simp [Prod.ext_iff, eq_comm]

end Pieces

/-! ## Every kernel -/

section Keeps

variable {α : Type} (env : KernelEnv α)

theorem relu_keeps_iff [Zero α] [LinearOrder α] (input : ArrayType α) :
    (relu env input).2 = [input] ↔
      ∀ i < (input.dimWord 0 * input.dimWord 1).toNat, ∀ x, input.data[i]? = some x → 0 ≤ x := by
  simp only [relu, List.cons.injEq, and_true, ArrayType.withData_eq_self_iff]
  rw [foldl_modify_eq_self_iff _ (fun _ => max 0)]
  simp only [max_eq_right_iff]

theorem madd_keeps_iff [AddGroup α] (matrix1 matrix2 : ArrayType α) :
    (madd env matrix1 matrix2).2 = [matrix1, matrix2] ↔
      ∀ i < (matrix1.dimWord 0 * matrix1.dimWord 1).toNat, i < matrix1.data.length →
        matrix2.elem (i : Nat) = 0 := by
  simp only [madd, List.cons.injEq, and_true, ArrayType.withData_eq_self_iff]
  rw [foldl_modify_eq_self_iff _ (fun i x => x + matrix2.elem (i : Nat))]
  simp only [add_eq_left]
  constructor
  · intro h i hi hlen
    exact h i hi _ (List.getElem?_eq_getElem hlen)
  · intro h i hi x hx
    exact h i hi (List.getElem?_eq_some_iff.mp hx).1

theorem groupKfmIm2col_keeps_iff [Zero α] [Add α] [Max α] (name : Bytes) (input : ArrayType α)
    (kernel padding stride split_num : Int) :
    (groupKfmIm2col env name input kernel padding stride split_num).2 = [input] ↔
      split_num = 0 ∨ ¬ split_num ∣ input.dimWord 0 ∨ split_num = 1 ∨ input.dimWord 0 = 0 := by
  unfold groupKfmIm2col
  by_cases hzero : split_num = 0
  · simp [hzero]
  rw [if_neg hzero]
  by_cases hdvd : split_num ∣ input.dimWord 0
  · rw [if_neg (not_not.mpr (Int.tmod_eq_zero_of_dvd hdvd))]
    obtain ⟨q, hq⟩ := hdvd
    simp only [List.cons.injEq, and_true, ArrayType.setDim0_eq_self_iff, hzero, false_or,
      hq, Int.mul_tdiv_cancel_left _ hzero, dvd_mul_right, not_true_eq_false]
    constructor
    · rintro (hnd | hqq)
      · right
        rw [← hq]
        exact ArrayType.dimWord_of_ndim_zero hnd 0
      · by_cases hq0 : q = 0
        · exact .inr (by rw [hq0, mul_zero])
        · left
          have hmul : q * (split_num - 1) = 0 := by rw [Int.mul_sub, mul_comm q, ← hqq]; simp
          rcases Int.mul_eq_zero.mp hmul with h | h
          · exact absurd h hq0
          · omega
    · rintro (rfl | h0)
      · exact .inr (one_mul q).symm
      · rcases Int.mul_eq_zero.mp h0 with h | h
        · exact absurd h hzero
        · exact .inr (by rw [h, mul_zero])
  · rw [if_pos fun h => hdvd (Int.dvd_of_tmod_eq_zero h)]
    simp [hdvd]

theorem concatArray_keeps_iff [Zero α] (inputs : List (ArrayType α))
    (offset : Option (ArrayType Int)) :
    (concatArray env inputs offset).2 = inputs ↔
      ∀ first rest off, inputs = first :: rest → offset = some off → 0 < first.ndim →
        off.elem 1 - off.elem 0 + 1 = first.dimWord 0 := by
  cases inputs with
  | nil => simp [concatArray]
  | cons first rest =>
    cases offset with
    | none => simp [concatArray, selectFirst]
    | some off =>
      simp only [concatArray, selectFirst, List.cons.injEq, and_true,
        ArrayType.setDim0_eq_self_iff, Option.some.injEq]
      constructor
      · rintro h _ _ _ ⟨rfl, rfl⟩ rfl hpos
        rcases h with h | h <;> omega
      · intro h
        rcases Nat.eq_zero_or_pos first.ndim with h0 | hpos
        · exact .inl h0
        · right
          have := h first rest off ⟨rfl, rfl⟩ rfl hpos
          omega

/-- When one call leaves the caller's arrays alone, whatever it returns. -/
theorem keeps_iff_harmless [AddGroup α] [LinearOrder α] (call : KernelCall (ArrayType α)) :
    (call.exec env).2 = call.args ↔ call.Harmless := by
  cases call with
  | relu input => exact relu_keeps_iff env input
  | madd matrix1 matrix2 => exact madd_keeps_iff env matrix1 matrix2
  | kfmIm2col name input kernel padding stride offset =>
    exact convolution_keeps_iff input offset _
  | kfmIm2colNs name input kernel_H kernel_W padding_H padding_W stride offset =>
    exact convolution_keeps_iff input offset _
  | groupKfmIm2col name input kernel padding stride split_num =>
    exact groupKfmIm2col_keeps_iff env name input kernel padding stride split_num
  | concatArray inputs offset => exact concatArray_keeps_iff env inputs offset

end Keeps

/-! ## Readers of one store -/

section Readers

variable {α : Type}

/-- The store after a call has returned its arguments: they *are* the stored arrays. -/
def writeBack (store : Nat → ArrayType α) (slots : List Nat) (arrays : List (ArrayType α)) :
    Nat → ArrayType α :=
  (slots.zip arrays).foldr (fun p st => Function.update st p.1 p.2) store

theorem writeBack_self (store : Nat → ArrayType α) (slots : List Nat) :
    writeBack store slots (slots.map store) = store := by
  induction slots with
  | nil => rfl
  | cons slot slots ih =>
    show Function.update (writeBack store slots (slots.map store)) slot (store slot) = store
    rw [ih, Function.update_eq_self]

variable [AddGroup α] [LinearOrder α] (env : KernelEnv α)

/-- The values the readers of a store get, in the order they are evaluated. -/
def runReaders (store : Nat → ArrayType α) :
    List (KernelCall Nat) → List (Except PgError (ArrayType α))
  | [] => []
  | reader :: readers =>
      ((reader.map store).exec env).1 ::
        runReaders (writeBack store reader.args ((reader.map store).exec env).2) readers

/-- **Harmless readers get the values of the store as it was**, so their order does not
matter. -/
theorem runReaders_of_harmless (store : Nat → ArrayType α) (readers : List (KernelCall Nat))
    (h : ∀ reader ∈ readers, (reader.map store).Harmless) :
    runReaders env store readers =
      readers.map fun reader => ((reader.map store).exec env).1 := by
  induction readers with
  | nil => rfl
  | cons reader readers ih =>
    have hkeeps := (keeps_iff_harmless env _).mpr (h reader (List.mem_cons_self ..))
    rw [runReaders, hkeeps, KernelCall.args_map, writeBack_self,
      ih fun r hr => h r (List.mem_cons_of_mem _ hr), List.map_cons]

end Readers

/-- A library that multiplies nothing, for calls that never reach it. -/
def idleEnv : KernelEnv Int := { pool := none, sgemm := fun _ _ _ _ _ => [], junk := fun _ => 0 }

end Peps
