import Peps.Lib.Outcome

/-!
# `const.py` — the enumerations and limits of the graph optimiser

Every enumeration of the Python package is an inductive type with the source's
member names; Python's `Enum` members compare equal only to themselves and are
not ordered, which is why none of these types carries an order.
-/

namespace Peps

def MAX_DIM : Nat := 8
def MAX_NUM_SPLITS : Nat := 32
def MAX_NUM_INPUTS : Nat := 6
def MAX_NUM_OUTPUTS : Nat := 6

def GUID_INVALID : Nat := 0
def GUID_INPUT : Nat := 10
def GUID_WEIGHT : Nat := 11
def GUID_PRESERVED : Nat := 19

inductive OpType where
  | OP_INPUT | OP_WEIGHT | OP_ANY | OP_CONV2D | OP_DROPOUT | OP_LINEAR
  | OP_POOL2D_MAX | OP_POOL2D_AVG | OP_RELU | OP_SIGMOID | OP_TANH | OP_BATCHNORM
  | OP_CONCAT | OP_SPLIT | OP_RESHAPE | OP_TRANSPOSE | OP_EW_ADD | OP_EW_MUL
  | OP_MATMUL | OP_MUL | OP_ENLARGE | OP_MERGE_GCONV | OP_CONSTANT_IMM
  | OP_CONSTANT_ICONV | OP_CONSTANT_ONE | OP_CONSTANT_POOL | OP_SQUEEZE
  | OP_UNSQUEEZE | OP_EW_SUB | OP_EW_DIV | OP_EW_EQUAL | OP_EW_GREATER | OP_EW_LESS
  | OP_EW_MAX | OP_EW_MIN | OP_REDUCE_ARGMAX | OP_REDUCE_ARGMIN | OP_REDUCE_MAX
  | OP_REDUCE_MEAN | OP_REDUCE_MIN | OP_REDUCE_PROD | OP_REDUCE_SUM | OP_PAD
  | OP_SHAPE | OP_SIZE | OP_TOPK | OP_WHERE | OP_CEIL | OP_CAST | OP_EXP | OP_ROUND
  | OP_LOG | OP_LOGICAL_NOT | OP_SQRT | OP_LEAKYRELU | OP_SLICE | OP_RESIZE
  | OP_PRELU | OP_FUSE_CONV_BATCHNORM | OP_FUSE_CONV_BATCHNORM_ALPHA_VAR
  | OP_FUSE_CONV_BATCHNORM_BIAS | OP_BROADCAST_ADD
deriving DecidableEq, Repr

inductive PMParameter where
  | PM_OP_TYPE | PM_NUM_INPUTS | PM_NUM_OUTPUTS | PM_GROUP | PM_KERNEL_H | PM_KERNEL_W
  | PM_STRIDE_H | PM_STRIDE_W | PM_PAD | PM_ACTI | PM_NUMDIM | PM_AXIS | PM_PERM
  | PM_OUTSHUFFLE | PM_MERGE_GCONV_COUNT | PM_AXES | PM_KEEP_DIMS | PM_EPSILON
deriving DecidableEq, Repr

inductive TNParameter where
  | IN_0 | IN_1 | IN_2 | IN_3 | IN_4 | IN_5 | OU_0 | OU_1 | OU_2 | OU_3 | OU_4 | OU_5
deriving DecidableEq, Repr

inductive DIMParameter where
  | DIM_0 | DIM_1 | DIM_2 | DIM_3 | DIM_ND
deriving DecidableEq, Repr

inductive ActiMode where
  | AC_MODE_NONE | AC_MODE_SIGMOID | AC_MODE_RELU | AC_MODE_TANH
deriving DecidableEq, Repr

/-- `ActiMode.value`, the integer `MatmulKey` stores instead of the member. -/
def ActiMode.value : ActiMode → Int
  | .AC_MODE_NONE => 0
  | .AC_MODE_SIGMOID => 1
  | .AC_MODE_RELU => 2
  | .AC_MODE_TANH => 3

theorem ActiMode.value_injective : Function.Injective ActiMode.value := by
  intro a b h
  cases a <;> cases b <;> first | rfl | exact absurd h (by decide)

inductive PaddingMode where
  | PD_MODE_SAME | PD_MODE_VALID
deriving DecidableEq, Repr

/-- The exceptions the modelled Python code can raise, and a loop that does not end. -/
inductive PyError where
  | assertionError | zeroDivisionError | typeError | keyError | indexError
  | attributeError | valueError | notImplementedError | endless
deriving DecidableEq, Repr

/-- `assert cond`. -/
def pyAssert (cond : Prop) [Decidable cond] : Except PyError Unit :=
  if cond then .ok () else .error .assertionError

/-- `a // b`: floor division, which raises on a zero divisor. -/
def pyFloorDiv (a b : Int) : Except PyError Int :=
  if b = 0 then .error .zeroDivisionError else .ok (a.fdiv b)

/-- `a % b`: the remainder that takes the divisor's sign. -/
def pyMod (a b : Int) : Except PyError Int :=
  if b = 0 then .error .zeroDivisionError else .ok (a.fmod b)

/-! ## Peeling a computation apart

What a successful step of the Python primitives says, beside the lemmas of
`Lib.Outcome`. -/

theorem pyAssert_eq_ok {cond : Prop} [Decidable cond] {u : Unit} :
    pyAssert cond = .ok u ↔ cond := by
  unfold pyAssert
  split <;> simp_all

theorem pyAssert_of {cond : Prop} [Decidable cond] (h : cond) : pyAssert cond = .ok () :=
  pyAssert_eq_ok.mpr h

theorem pyFloorDiv_eq_ok {a b q : Int} :
    pyFloorDiv a b = .ok q ↔ b ≠ 0 ∧ q = a.fdiv b := by
  unfold pyFloorDiv
  split <;> simp_all [eq_comm]

theorem pyMod_eq_ok {a b r : Int} :
    pyMod a b = .ok r ↔ b ≠ 0 ∧ r = a.fmod b := by
  unfold pyMod
  split <;> simp_all [eq_comm]

end Peps
