import Mathlib.Tactic.Ring
import Mathlib.Data.List.Basic

/-!
# Integers on the wire

Unsigned integers travel big-endian in a fixed number of bytes (`beBytes`), signed machine
words as the bytes they are in memory (`wordBytes`). A message is read from the front:
`getBytes` splits off a given number of bytes and fails when they are not there. For each
writer there is one lemma that says what reading it back gives, in front of whatever follows.
-/

namespace Peps.Lib

/-! ## Unsigned integers -/

def beBytes : Nat → Nat → List UInt8
  | 0, _ => []
  | width + 1, n => beBytes width (n / 256) ++ [UInt8.ofNat n]

def beValue (bytes : List UInt8) : Nat := bytes.foldl (fun acc b => acc * 256 + b.toNat) 0

@[simp] theorem length_beBytes (width n : Nat) : (beBytes width n).length = width := by
  induction width generalizing n with
  | zero => rfl
  | succ width ih => simp [beBytes, ih]

theorem beValue_beBytes {width n : Nat} (h : n < 256 ^ width) : beValue (beBytes width n) = n := by
  induction width generalizing n with
  | zero =>
    have hn : n = 0 := by simpa using h
    subst hn
    rfl
  | succ width ih =>
    have hdiv : n / 256 < 256 ^ width := by
      apply Nat.div_lt_of_lt_mul
      calc n < 256 ^ (width + 1) := h
        _ = 256 * 256 ^ width := by ring
    have hlow : (UInt8.ofNat n).toNat = n % 256 := by simp
    unfold beValue at ih ⊢
    rw [beBytes, List.foldl_append, ih hdiv, List.foldl_cons, List.foldl_nil, hlow]
    omega

/-! ## Machine words -/

-- two's complement, least significant byte first
def wordBytes (v : Int) : List UInt8 := (beBytes 4 (v % 2 ^ 32).toNat).reverse

def wordValue (bytes : List UInt8) : Int :=
  if beValue bytes.reverse < 2 ^ 31 then beValue bytes.reverse
  else (beValue bytes.reverse : Int) - 2 ^ 32

@[simp] theorem length_wordBytes (v : Int) : (wordBytes v).length = 4 := by
  simp [wordBytes]

theorem wordValue_wordBytes {v : Int} (hlo : -2 ^ 31 ≤ v) (hhi : v < 2 ^ 31) :
    wordValue (wordBytes v) = v := by
  unfold wordValue wordBytes
  rw [List.reverse_reverse, beValue_beBytes (by omega)]
  -- the sign decides which of the two ranges the residue falls into
  split <;> omega

def wordsBytes (vs : List Int) : List UInt8 := vs.flatMap wordBytes

def wordsValue : Nat → List UInt8 → List Int
  | 0, _ => []
  | n + 1, bytes => wordValue (bytes.take 4) :: wordsValue n (bytes.drop 4)

theorem length_wordsBytes (vs : List Int) : (wordsBytes vs).length = 4 * vs.length := by
  unfold wordsBytes
  induction vs with
  | nil => rfl
  | cons v vs ih => rw [List.flatMap_cons, List.length_append, ih, length_wordBytes,
      List.length_cons]; omega

theorem wordsValue_wordsBytes {vs : List Int} (h : ∀ v ∈ vs, -2 ^ 31 ≤ v ∧ v < 2 ^ 31) :
    wordsValue vs.length (wordsBytes vs) = vs := by
  induction vs with
  | nil => rfl
  | cons v vs ih =>
    obtain ⟨hlo, hhi⟩ := h v (List.mem_cons_self ..)
    have htake : (wordBytes v ++ wordsBytes vs).take 4 = wordBytes v := by
      rw [← length_wordBytes v]
      exact List.take_left
    have hdrop : (wordBytes v ++ wordsBytes vs).drop 4 = wordsBytes vs := by
      rw [← length_wordBytes v]
      exact List.drop_left
    show wordValue ((wordBytes v ++ wordsBytes vs).take 4) ::
      wordsValue vs.length ((wordBytes v ++ wordsBytes vs).drop 4) = v :: vs
    rw [htake, hdrop, wordValue_wordBytes hlo hhi,
      ih fun u hu => h u (List.mem_cons_of_mem _ hu)]

/-! ## Reading a message from the front -/

def getBytes {ε : Type} (short : ε) (n : Nat) (buf : List UInt8) :
    Except ε (List UInt8 × List UInt8) :=
  if n ≤ buf.length then .ok (buf.take n, buf.drop n) else .error short

theorem getBytes_append {ε : Type} (short : ε) {n : Nat} {field : List UInt8}
    (hlen : field.length = n) (rest : List UInt8) :
    getBytes short n (field ++ rest) = .ok (field, rest) := by
  subst hlen
  rw [getBytes, if_pos (by simp), List.take_left, List.drop_left]

end Peps.Lib
