import Mathlib.Algebra.Field.Basic
import Mathlib.Algebra.Field.Rat
import Mathlib.Algebra.GroupWithZero.Units.Basic
import Peps.Kernel.Kernels

/-!
# `batchnorm`

The second argument holds four values for each channel, in four blocks: the scales, the biases, the
means and the variances. The loop reads all four of its channel and then normalises with three of
them. What it computes is `getElem?_batchnorm`; that this is the normalisation with the scale
exactly where the scale makes no difference is `batchnorm_normalizes_iff`.

The numbers are those of a field, and the square root is any function on it. Division by zero is the
field's: the quotient is zero.
-/

namespace Peps

open Lib

/-! ## The function -/

section Model

variable {α : Type} [Add α] [Sub α] [Div α]

/-- The variables that the loop over the channels changes. -/
structure NormLoop (α : Type) where
  res_data : List α
  offset : Int

/-- The body of the loop over the channels. -/
def normalizeChannel (sqrt : α → α) (input_data args : Int → α) (channel nelems_channel : Int)
    (st : NormLoop α) (c : Nat) : NormLoop α :=
  -- `scale = args[c]` stands before these, and nothing reads it
  let bias := args (channel + c)
  let mean := args (2 * channel + c)
  let var := args (3 * channel + c)
  { res_data := (List.range nelems_channel.toNat).foldl (fun res_data (i : Nat) =>
      res_data.set (st.offset + i).toNat
        ((input_data (st.offset + i) - mean) / sqrt var + bias)) st.res_data
    offset := st.offset + nelems_channel }

/-- `batchnorm(input, args)`. -/
def batchnorm (sqrt : α → α) (env : KernelEnv α) (input args : ArrayType α) : ArrayType α :=
  let channel := input.dimWord 0
  let nelems_channel := input.dimWord 1
  let size := channel * nelems_channel
  let st := (List.range channel.toNat).foldl
    (normalizeChannel sqrt input.elem args.elem channel nelems_channel)
    { res_data := env.palloc size, offset := 0 }
  ArrayType.matrix channel nelems_channel st.res_data env.junk

end Model

/-! ## What it computes -/

section Computes

variable {α : Type} [Add α] [Sub α] [Div α] {sqrt : α → α} {input_data args : Int → α}

/-- What the loop stores at position `j`, which belongs to channel `c`. -/
def stored (sqrt : α → α) (input_data args : Int → α) (channels c j : Nat) : α :=
  (input_data j - args (2 * channels + c)) / sqrt (args (3 * channels + c)) + args (channels + c)

/-- One channel, once the offset has reached its first cell. -/
theorem getElem?_normalizeChannel {channels n c : Nat} {st : NormLoop α}
    (hoffset : st.offset = (c * n : Nat)) (j : Nat) :
    (normalizeChannel sqrt input_data args channels n st c).res_data[j]? =
      if c * n ≤ j ∧ j < c * n + n then
        st.res_data[j]?.map fun _ => stored sqrt input_data args channels c j
      else st.res_data[j]? := by
  rw [← getElem?_foldl_set (c * n) n (stored sqrt input_data args channels c)]
  show ((List.range n).foldl _ st.res_data)[j]? = _
  rw [hoffset]
  rfl

/-- **The loop over the channels**: after `m` of them the offset is at the next one, and every cell
before it has been stored to. -/
theorem normalizeChannel_run (channels n m : Nat) (buf : List α) :
    let st := (List.range m).foldl (normalizeChannel sqrt input_data args channels n)
      { res_data := buf, offset := 0 }
    st.offset = (m * n : Nat) ∧ ∀ j : Nat, st.res_data[j]? =
      if j < m * n then buf[j]?.map fun _ => stored sqrt input_data args channels (j / n) j
      else buf[j]? := by
  induction m with
  | zero =>
    rw [Nat.zero_mul]
    exact ⟨rfl, fun j => (if_neg (Nat.not_lt_zero j)).symm⟩
  | succ m ih =>
    obtain ⟨hoffset, hcells⟩ := ih
    rw [List.range_succ, List.foldl_append, List.foldl_cons, List.foldl_nil, Nat.succ_mul]
    constructor
    · show _ + (n : Int) = _
      rw [hoffset]
      rfl
    · intro j
      rw [getElem?_normalizeChannel hoffset, hcells]
      by_cases hlast : m * n ≤ j ∧ j < m * n + n
      · have hdiv : j / n = m :=
          Nat.div_eq_of_lt_le hlast.1 (by rw [Nat.succ_mul]; exact hlast.2)
        rw [if_pos hlast, if_neg (by omega), if_pos (by omega), hdiv]
      · rw [if_neg hlast]
        by_cases hin : j < m * n
        · rw [if_pos hin, if_pos (by omega)]
        · rw [if_neg hin, if_neg (by omega)]

/-- **Every cell of `batchnorm`**, for any square root. The scale is not in it. -/
theorem getElem?_batchnorm (env : KernelEnv α) {input arguments : ArrayType α} {channels n : Nat}
    (hdims : input.dims = [(channels : Int), (n : Int)]) {c i : Nat} (hc : c < channels)
    (hi : i < n) :
    (batchnorm sqrt env input arguments).data[c * n + i]? =
      some (stored sqrt input.elem arguments.elem channels c (c * n + i)) := by
  have hrows : input.dimWord 0 = channels := by simp [ArrayType.dimWord, hdims]
  have hcols : input.dimWord 1 = n := by simp [ArrayType.dimWord, hdims]
  have hslot := slot_lt hc hi
  have hlen : (env.palloc (channels * n)).length = channels * n := by
    rw [KernelEnv.palloc, List.length_map, List.length_range]
    exact Int.toNat_natCast (channels * n)
  show (NormLoop.res_data ((List.range (input.dimWord 0).toNat).foldl _ _))[c * n + i]? = _
  rw [hrows, hcols, Int.toNat_natCast, (normalizeChannel_run channels n channels _).2,
    if_pos hslot, List.getElem?_eq_getElem (by rw [hlen]; exact hslot), Option.map_some,
    show (c * n + i) / n = c from
      Nat.div_eq_of_lt_le (Nat.le_add_right ..) (by rw [Nat.succ_mul]; omega)]

end Computes

/-! ## The normalisation -/

section Normalisation

variable {α : Type} [Field α]

/-- Batch normalisation with the four parameters of a channel. -/
def normalized (sqrt : α → α) (scale bias mean var x : α) : α :=
  scale * (x - mean) / sqrt var + bias

/-- Leaving the scale out changes nothing exactly when it is one or there is nothing to scale. -/
theorem unscaled_eq_normalized_iff (sqrt : α → α) (scale bias mean var x : α) :
    (x - mean) / sqrt var + bias = normalized sqrt scale bias mean var x ↔
      scale = 1 ∨ x = mean ∨ sqrt var = 0 := by
  rw [normalized, add_left_inj, mul_div_assoc]
  constructor
  · intro h
    by_cases hq : (x - mean) / sqrt var = 0
    · rcases div_eq_zero_iff.mp hq with hx | hs
      · exact Or.inr (Or.inl (sub_eq_zero.mp hx))
      · exact Or.inr (Or.inr hs)
    · exact Or.inl (mul_right_cancel₀ hq (by rw [one_mul]; exact h.symm))
  · rintro (rfl | rfl | hs)
    · rw [one_mul]
    · rw [sub_self, zero_div, mul_zero]
    · rw [hs, div_zero, mul_zero]

/-- **`batchnorm` is batch normalisation exactly where the scale makes no difference.** -/
theorem batchnorm_normalizes_iff (sqrt : α → α) (env : KernelEnv α) (input args : ArrayType α)
    (channels n : Nat) (hdims : input.dims = [(channels : Int), (n : Int)]) :
    (∀ c < channels, ∀ i < n, (batchnorm sqrt env input args).data[c * n + i]? =
      some (normalized sqrt (args.elem c) (args.elem (channels + c))
        (args.elem (2 * channels + c)) (args.elem (3 * channels + c))
        (input.elem (c * n + i : Nat)))) ↔
      ∀ c < channels, ∀ i < n, args.elem c = 1 ∨
        input.elem (c * n + i : Nat) = args.elem (2 * channels + c) ∨
        sqrt (args.elem (3 * channels + c)) = 0 := by
  refine forall₂_congr fun c hc => forall₂_congr fun i hi => ?_
  rw [getElem?_batchnorm env hdims hc hi, Option.some.injEq]
  exact unscaled_eq_normalized_iff sqrt _ _ _ _ _

/-- One channel of one element with scale 2, bias 0, mean 0 and variance 1. -/
def scaledInput : ArrayType ℚ × ArrayType ℚ :=
  (ArrayType.matrix 1 1 [3] fun _ => 0, ArrayType.matrix 1 4 [2, 0, 0, 1] fun _ => 0)

/-- The scale is not applied: 3 comes back as 3, not as 6. -/
theorem batchnorm_drops_scale :
    (batchnorm id ⟨none, fun _ _ _ _ _ => [], fun _ => 0⟩ scaledInput.1 scaledInput.2).data = [3] ∧
      normalized id (scaledInput.2.elem 0) (scaledInput.2.elem 1) (scaledInput.2.elem 2)
        (scaledInput.2.elem 3) (scaledInput.1.elem 0) = 6 := by
  decide +kernel

/-- Two channels of one element, with scale 1 in both. -/
def unscaledInput : ArrayType ℚ × ArrayType ℚ :=
  (ArrayType.matrix 2 1 [5, 7] fun _ => 0,
    ArrayType.matrix 1 8 [1, 1, 10, 20, 1, 2, 4, 5] fun _ => 0)

/-- Both sides of the equivalence hold there. -/
theorem batchnorm_unit_scale :
    unscaledInput.1.dims = [2, 1] ∧ ∀ c : Nat, c < 2 → ∀ i : Nat, i < 1 →
      (batchnorm id ⟨none, fun _ _ _ _ _ => [], fun _ => 0⟩ unscaledInput.1
        unscaledInput.2).data[c * 1 + i]? =
      some (normalized id (unscaledInput.2.elem c) (unscaledInput.2.elem ((2 : Nat) + c))
        (unscaledInput.2.elem (2 * (2 : Nat) + c)) (unscaledInput.2.elem (3 * (2 : Nat) + c))
        (unscaledInput.1.elem (c * 1 + i : Nat))) := by
  refine ⟨rfl, (batchnorm_normalizes_iff id _ unscaledInput.1 unscaledInput.2 2 1 rfl).mpr ?_⟩
  decide +kernel

end Normalisation

end Peps
