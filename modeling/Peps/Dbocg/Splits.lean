import Mathlib.Algebra.Order.Ring.Int
import Mathlib.Data.List.Induction
import Mathlib.Data.List.TakeWhile
import Peps.Dbocg.Tensor
import Peps.Lib.Outcome

/-!
# `SplitInfo.merge` and `SplitInfo.divide`

A concatenation leaves in the split info of its axis where its pieces meet: `merge` appends the
positions of the next piece, moved by its offset, and then the offset. `divide` takes the last
position for the offset and everything before the first position that is not below it for the left
part.

Two layers. `SplitCells` is the object of the source, `num` and a list of `MAX_NUM_SPLITS` cells of
which those past `num` are stale; `merge_ok` and `divide_ok` say what its methods do to the positions
in use. Over it, the positions alone are a list, merged by `mergePos` and taken apart by `dividePos`;
there the question is when the second undoes the first (`dividePos_mergePos_iff`), and by induction
along a concatenation, when all its pieces come back (`unwind_merged_iff`).
-/

namespace Peps

open Lib

/-! ## The object -/

/-- A `SplitInfo` with all its cells. -/
structure SplitCells where
  num : Nat
  pos : Vector Int MAX_NUM_SPLITS
  hnum : num ≤ MAX_NUM_SPLITS

namespace SplitCells

/-- `SplitInfo()`. -/
def new : SplitCells := ⟨0, Vector.replicate _ 0, Nat.zero_le _⟩

/-- `self.pos[i]`. -/
def posAt (s : SplitCells) (i : Nat) : Except PyError Int :=
  if h : i < MAX_NUM_SPLITS then .ok s.pos[i] else .error .indexError

/-- `self.pos[self.num] = v; self.num += 1`. -/
def push (s : SplitCells) (v : Int) : Except PyError SplitCells :=
  if h : s.num < MAX_NUM_SPLITS then .ok ⟨s.num + 1, s.pos.set s.num v h, h⟩
  else .error .indexError

/-- `self.num = 0`. -/
def clear (s : SplitCells) : SplitCells := { s with num := 0, hnum := Nat.zero_le _ }

/-- The loops that append the cells of `src` from `start` on, each changed by `f`. -/
def copyRange (src : SplitCells) (f : Int → Int) (start count : Nat) (dst : SplitCells) :
    Except PyError SplitCells :=
  (List.range' start count).foldlM (fun dst i => do
    let p ← src.posAt i
    dst.push (f p)) dst

/-- `merge(offset, next)`. -/
def merge (self : SplitCells) (offset : Int) (next : SplitCells) : Except PyError SplitCells := do
  pyAssert (self.num + 1 + next.num < MAX_NUM_SPLITS)
  let self ← next.copyRange (offset + ·) 0 next.num self
  self.push offset

/-- `while idx < self.num and self.pos[idx] < mid`, with `fuel` for `self.num - idx`. -/
def leftLoop (self : SplitCells) (mid : Int) :
    Nat → Nat → SplitCells → Except PyError (Nat × SplitCells)
  | 0, idx, left => .ok (idx, left)
  | fuel + 1, idx, left => do
    let p ← self.posAt idx
    if p < mid then do
      let left ← left.push p
      leftLoop self mid fuel (idx + 1) left
    else .ok (idx, left)

/-- `divide(left, right)`: the offset, and the two objects as they are left. -/
def divide (self left right : SplitCells) : Except PyError (Int × SplitCells × SplitCells) := do
  pyAssert (0 < self.num)
  let mid ← self.posAt (self.num - 1)
  let (idx, left) ← self.leftLoop mid self.num 0 left.clear
  let right ← self.copyRange (· - mid) idx (self.num - 1 - idx) right.clear
  .ok (mid, left, right)

/-- `__eq__`. -/
def eq (self rhs : SplitCells) : Bool :=
  self.num = rhs.num ∧ (List.range self.num).all fun i => self.pos.toList[i]? = rhs.pos.toList[i]?

/-- The loop of `Concat` along its axis: the split and the dim of the output. -/
def concat (first : SplitCells) (dim : Int) (rest : List (Int × SplitCells)) :
    Except PyError (SplitCells × Int) :=
  rest.foldlM (fun out next => do
    let split ← out.1.merge out.2 next.2
    .ok (split, out.2 + next.1)) (first, dim)

/-- Dividing the left part `n` times: the offsets with the right parts, and what is left. -/
def divideLeft : Nat → SplitCells → Except PyError (List (Int × SplitCells) × SplitCells)
  | 0, s => .ok ([], s)
  | n + 1, s => do
    let (mid, left, right) ← s.divide new new
    let (parts, last) ← divideLeft n left
    .ok ((mid, right) :: parts, last)

/-! ### The positions in use -/

/-- The positions in use. -/
def positions (s : SplitCells) : List Int := s.pos.toList.take s.num

@[simp] theorem length_positions (s : SplitCells) : s.positions.length = s.num := by
  rw [positions, List.length_take, Vector.length_toList]
  exact Nat.min_eq_left s.hnum

@[simp] theorem positions_new : new.positions = [] := rfl

@[simp] theorem positions_clear (s : SplitCells) : s.clear.positions = [] := List.take_zero

/-- The split info of a tensor of the model. -/
def toSplitInfo (s : SplitCells) : SplitInfo := ⟨s.positions, by rw [length_positions]; exact s.hnum⟩

theorem posAt_of_lt {s : SplitCells} {i : Nat} (hi : i < s.num) :
    ∃ p, s.posAt i = .ok p ∧ s.positions[i]? = some p := by
  have hlt : i < MAX_NUM_SPLITS := hi.trans_le s.hnum
  refine ⟨s.pos[i], dif_pos hlt, ?_⟩
  rw [positions, List.getElem?_take_of_lt hi, Vector.getElem?_toList, Vector.getElem?_eq_getElem hlt]

theorem push_ok {s : SplitCells} (h : s.num < MAX_NUM_SPLITS) (v : Int) :
    ∃ s', s.push v = .ok s' ∧ s'.num = s.num + 1 ∧ s'.positions = s.positions ++ [v] := by
  refine ⟨_, dif_pos h, rfl, ?_⟩
  show (s.pos.set s.num v h).toList.take (s.num + 1) = s.pos.toList.take s.num ++ [v]
  rw [Vector.toList_set, List.take_add_one, List.take_set_of_le (le_refl _),
    List.getElem?_set_self (by rw [Vector.length_toList]; exact h)]
  rfl

/-- Two infos are equal for `__eq__` if they have the same positions. -/
theorem eq_iff (a b : SplitCells) : a.eq b ↔ a.positions = b.positions := by
  rw [eq, decide_eq_true_iff, List.all_eq_true]
  simp only [List.mem_range, decide_eq_true_eq]
  constructor
  · rintro ⟨hnum, hcells⟩
    refine List.ext_getElem? fun i => ?_
    by_cases hi : i < a.num
    · rw [positions, positions, List.getElem?_take_of_lt hi, List.getElem?_take_of_lt (hnum ▸ hi)]
      exact hcells i hi
    · rw [List.getElem?_eq_none (by rw [length_positions]; omega),
        List.getElem?_eq_none (by rw [length_positions]; omega)]
  · intro h
    have hnum : a.num = b.num := by rw [← length_positions a, h, length_positions]
    refine ⟨hnum, fun i hi => ?_⟩
    have hcell := congrArg (·[i]?) h
    simp only [positions] at hcell
    rw [List.getElem?_take_of_lt hi, List.getElem?_take_of_lt (hnum ▸ hi)] at hcell
    exact hcell

/-- `__eq__` is equality of the split infos that the tensors of the model have. -/
theorem toSplitInfo_eq_iff (a b : SplitCells) : a.toSplitInfo = b.toSplitInfo ↔ a.eq b := by
  rw [eq_iff, toSplitInfo, toSplitInfo, SplitInfo.mk.injEq]

/-- **A copying loop** appends the changed cells; the room it needs is the number of its rounds. -/
theorem copyRange_ok (src : SplitCells) (f : Int → Int) {start count : Nat} {dst : SplitCells}
    (hsrc : start + count ≤ src.num) (hdst : dst.num + count ≤ MAX_NUM_SPLITS) :
    ∃ dst', src.copyRange f start count dst = .ok dst' ∧ dst'.num = dst.num + count ∧
      dst'.positions = dst.positions ++ ((src.positions.drop start).take count).map f := by
  induction count generalizing start dst with
  | zero => exact ⟨dst, rfl, rfl, by rw [List.take_zero, List.map_nil, List.append_nil]⟩
  | succ count ih =>
    obtain ⟨p, hat, hp⟩ := posAt_of_lt (s := src) (i := start) (by omega)
    obtain ⟨mid, hpush, hnum, hpos⟩ := push_ok (s := dst) (by omega) (f p)
    obtain ⟨dst', hrun, hnum', hpos'⟩ := @ih (start + 1) mid (by omega) (by omega)
    refine ⟨dst', ?_, by omega, ?_⟩
    · rw [copyRange, List.range'_succ, List.foldlM_cons, hat]
      show (dst.push (f p) >>= _) = _
      rw [hpush]
      exact hrun
    · have hdrop : src.positions.drop start = p :: src.positions.drop (start + 1) := by
        obtain ⟨hlt, rfl⟩ := List.getElem?_eq_some_iff.mp hp
        exact List.drop_eq_getElem_cons hlt
      rw [hpos', hpos, hdrop, List.take_succ_cons, List.map_cons, List.append_assoc,
        List.singleton_append]

end SplitCells

/-! ## The positions alone -/

/-- The positions after `merge(offset, next)`. -/
def mergePos (xs : List Int) (offset : Int) (ys : List Int) : List Int :=
  xs ++ ys.map (offset + ·) ++ [offset]

/-- What `divide` makes of the positions before the last one. -/
def dividePos (init : List Int) (mid : Int) : List Int × List Int :=
  (init.takeWhile (· < mid), (init.dropWhile (· < mid)).map (· - mid))

/-- **`divide` undoes one `merge`** exactly if the left positions are below the offset. -/
theorem dividePos_mergePos_iff {xs ys : List Int} {offset : Int} (hys : ∀ y ∈ ys, 0 ≤ y) :
    (dividePos (xs ++ ys.map (offset + ·)) offset).2 = ys ↔ ∀ x ∈ xs, x < offset := by
  have hright : ∀ y ∈ ys.map (offset + ·), ¬ y < offset := by
    intro y hy
    obtain ⟨y, hmem, rfl⟩ := List.mem_map.mp hy
    have := hys y hmem
    omega
  have hdrop : (ys.map (offset + ·)).dropWhile (· < offset) = ys.map (offset + ·) := by
    rw [List.dropWhile_eq_self_iff]
    intro hlen
    rw [decide_eq_true_iff]
    exact hright _ (List.getElem_mem hlen)
  constructor
  · intro h
    by_contra hnot
    -- a position that is not below the offset goes to the right part, which has one too many then
    have hlong : ys.length < ((xs ++ ys.map (offset + ·)).dropWhile (· < offset)).length := by
      rw [List.dropWhile_append, if_neg, List.length_append, List.length_map]
      · have hne : xs.dropWhile (· < offset) ≠ [] := by
          intro hnil
          rw [List.dropWhile_eq_nil_iff] at hnil
          exact hnot fun x hx => decide_eq_true_iff.mp (hnil x hx)
        have := List.length_pos_of_ne_nil hne
        omega
      · rw [List.isEmpty_iff, List.dropWhile_eq_nil_iff]
        exact fun hall => hnot fun x hx => decide_eq_true_iff.mp (hall x hx)
    have hlen := congrArg List.length h
    rw [dividePos, List.length_map] at hlen
    omega
  · intro h
    have hxs : ∀ x ∈ xs, decide (x < offset) = true := fun x hx => decide_eq_true (h x hx)
    rw [dividePos, List.dropWhile_append_of_pos hxs, hdrop, List.map_map]
    refine (List.map_congr_left fun y _ => ?_).trans (List.map_id ys)
    show offset + y - offset = y
    omega

theorem dividePos_left {xs ys : List Int} {offset : Int} (hys : ∀ y ∈ ys, 0 ≤ y)
    (hxs : ∀ x ∈ xs, x < offset) : (dividePos (xs ++ ys.map (offset + ·)) offset).1 = xs := by
  have hhead : (ys.map (offset + ·)).takeWhile (· < offset) = [] := by
    rw [List.takeWhile_eq_nil_iff]
    intro hlen
    rw [decide_eq_true_iff]
    obtain ⟨y, hy, heq⟩ := List.mem_map.mp (List.get_mem (ys.map (offset + ·)) ⟨0, hlen⟩)
    have := hys y hy
    omega
  rw [dividePos, List.takeWhile_append_of_pos fun x hx => decide_eq_true (hxs x hx), hhead,
    List.append_nil]

/-- Dividing the left part `n` times; nothing if the positions run out. -/
def unwind : Nat → List Int → Option (List (Int × List Int) × List Int)
  | 0, xs => some ([], xs)
  | n + 1, xs => do
    let mid ← xs.getLast?
    let (parts, last) ← unwind n (dividePos xs.dropLast mid).1
    some ((mid, (dividePos xs.dropLast mid).2) :: parts, last)

namespace SplitCells

/-! ## What the methods do to the positions -/

/-- **`merge`.** -/
theorem merge_ok {self next : SplitCells} (offset : Int)
    (h : self.num + 1 + next.num < MAX_NUM_SPLITS) :
    ∃ s, self.merge offset next = .ok s ∧ s.num = self.num + next.num + 1 ∧
      s.positions = mergePos self.positions offset next.positions := by
  obtain ⟨mid, hcopy, hnum, hpos⟩ := @copyRange_ok next (offset + ·) 0 next.num self (by omega) (by omega)
  obtain ⟨s, hpush, hnum', hpos'⟩ := push_ok (s := mid) (by omega) offset
  refine ⟨s, ?_, by omega, ?_⟩
  · rw [merge, pyAssert_of h]
    show (next.copyRange _ 0 next.num self >>= _) = _
    rw [hcopy]
    exact hpush
  · have hall : next.positions.take next.num = next.positions :=
      List.take_of_length_le (by rw [length_positions])
    rw [hpos', hpos, List.drop_zero, hall, mergePos]

/-- The loop for the left part copies what is below `mid`. -/
theorem leftLoop_ok (self : SplitCells) (mid : Int) {fuel idx : Nat} {left : SplitCells}
    (hidx : idx + fuel = self.num) (hroom : left.num + fuel ≤ MAX_NUM_SPLITS) :
    ∃ left', self.leftLoop mid fuel idx left =
        .ok (idx + ((self.positions.drop idx).takeWhile (· < mid)).length, left') ∧
      left'.positions = left.positions ++ (self.positions.drop idx).takeWhile (· < mid) := by
  induction fuel generalizing idx left with
  | zero =>
    have hnil : self.positions.drop idx = [] :=
      List.drop_eq_nil_of_le (by rw [length_positions]; omega)
    rw [hnil, List.takeWhile_nil]
    exact ⟨left, rfl, (List.append_nil _).symm⟩
  | succ fuel ih =>
    obtain ⟨p, hat, hp⟩ := posAt_of_lt (s := self) (i := idx) (by omega)
    have hdrop : self.positions.drop idx = p :: self.positions.drop (idx + 1) := by
      obtain ⟨hlt, rfl⟩ := List.getElem?_eq_some_iff.mp hp
      exact List.drop_eq_getElem_cons hlt
    by_cases hlow : p < mid
    · have htake : (p :: self.positions.drop (idx + 1)).takeWhile (· < mid) =
          p :: (self.positions.drop (idx + 1)).takeWhile (· < mid) :=
        List.takeWhile_cons_of_pos (by simpa using hlow)
      obtain ⟨grown, hpush, hnum, hpos⟩ := push_ok (s := left) (by omega) p
      obtain ⟨left', hrun, hpos'⟩ := @ih (idx + 1) grown (by omega) (by omega)
      refine ⟨left', ?_, ?_⟩
      · rw [leftLoop, hat]
        show (if p < mid then left.push p >>= _ else _) = _
        have hcount : idx + ((self.positions.drop (idx + 1)).takeWhile (· < mid)).length.succ =
            idx + 1 + ((self.positions.drop (idx + 1)).takeWhile (· < mid)).length := by omega
        rw [if_pos hlow, hpush, hdrop, htake, List.length_cons, hcount]
        exact hrun
      · rw [hpos', hpos, hdrop, htake, List.append_assoc, List.singleton_append]
    · refine ⟨left, ?_, ?_⟩
      · rw [leftLoop, hat, hdrop, List.takeWhile_cons_of_neg (by simpa using hlow)]
        exact if_neg hlow
      · rw [hdrop, List.takeWhile_cons_of_neg (by simpa using hlow), List.append_nil]

/-- **`divide`**, on an info that ends in `mid`. -/
theorem divide_ok (self left right : SplitCells) {init : List Int} {mid : Int}
    (hpos : self.positions = init ++ [mid]) :
    ∃ left' right', self.divide left right = .ok (mid, left', right') ∧
      left'.positions = (dividePos init mid).1 ∧ right'.positions = (dividePos init mid).2 := by
  have hnum : self.num = init.length + 1 := by
    rw [← length_positions, hpos, List.length_append, List.length_singleton]
  have hle := self.hnum
  -- the last position is not below itself, so the first loop stays within the others
  have htake : self.positions.takeWhile (· < mid) = init.takeWhile (· < mid) := by
    rw [hpos, List.takeWhile_append]
    split
    · next hall =>
      rw [List.takeWhile_cons_of_neg (by simp), List.append_nil]
      exact ( List.takeWhile_prefix _).eq_of_length hall |>.symm
    · rfl
  have hlen : (init.takeWhile (· < mid)).length ≤ init.length :=
    ( List.takeWhile_prefix _).length_le
  obtain ⟨p, hat, hp⟩ := posAt_of_lt (s := self) (i := self.num - 1) (by omega)
  obtain rfl : mid = p := by
    rw [hpos, hnum, Nat.add_sub_cancel, List.getElem?_concat_length] at hp
    exact Option.some.inj hp
  obtain ⟨left', hleft, hleftPos⟩ := @leftLoop_ok self mid self.num 0 left.clear
    (by omega) (by show 0 + self.num ≤ _; omega)
  rw [List.drop_zero, htake] at hleft hleftPos
  obtain ⟨right', hright, -, hrightPos⟩ := @copyRange_ok self (· - mid)
    (0 + (init.takeWhile (· < mid)).length)
    (self.num - 1 - (0 + (init.takeWhile (· < mid)).length)) right.clear (by omega)
    (by show 0 + _ ≤ _; omega)
  refine ⟨left', right', ?_, ?_, ?_⟩
  · rw [divide, pyAssert_of (by omega)]
    show (self.posAt (self.num - 1) >>= _) = _
    rw [hat]
    show (self.leftLoop mid self.num 0 left.clear >>= _) = _
    rw [hleft]
    show (self.copyRange _ _ _ right.clear >>= _) = _
    rw [hright]
    rfl
  · rw [hleftPos, positions_clear, List.nil_append]
    rfl
  · rw [hrightPos, positions_clear, List.nil_append, hpos, Nat.zero_add, dividePos]
    refine congrArg (List.map _) ?_
    have hsplit : init.drop (init.takeWhile (· < mid)).length = init.dropWhile (· < mid) := by
      have happend := List.takeWhile_append_dropWhile (p := (· < mid)) (l := init)
      nth_rewrite 2 [← happend]
      exact List.drop_left
    rw [List.drop_append_of_le_length hlen, hsplit, List.take_left']
    rw [hnum, ← hsplit, List.length_drop]
    omega

theorem positions_of_merge {self next s : SplitCells} {offset : Int}
    (h : self.merge offset next = .ok s) :
    s.positions = mergePos self.positions offset next.positions := by
  obtain ⟨_, hassert, -⟩ := bind_ok_iff.mp h
  obtain ⟨s', hrun, -, hpos⟩ := @merge_ok self next offset (pyAssert_eq_ok.mp hassert)
  rw [hrun] at h
  cases h
  exact hpos

/-- **Dividing again and again** does to the objects what `unwind` does to the positions. -/
theorem divideLeft_positions (n : Nat) (s : SplitCells) :
    (divideLeft n s).toOption.map (fun r => (r.1.map (Prod.map id positions), r.2.positions)) =
      unwind n s.positions := by
  induction n generalizing s with
  | zero => rfl
  | succ n ih =>
    rcases List.eq_nil_or_concat s.positions with hnil | ⟨init, mid, hpos⟩
    · have hnum : ¬ 0 < s.num := by rw [← length_positions, hnil]; exact lt_irrefl 0
      have herr : s.divide new new = .error .assertionError := by
        rw [divide, pyAssert, if_neg hnum]
        rfl
      rw [divideLeft, herr, hnil]
      rfl
    · rw [List.concat_eq_append] at hpos
      obtain ⟨left, right, hdivide, hleft, hright⟩ := divide_ok s new new hpos
      rw [divideLeft, hdivide, unwind, hpos, List.getLast?_concat, List.dropLast_concat]
      show ((divideLeft n left >>= fun r => Except.ok ((mid, right) :: r.1, r.2)).toOption.map _) =
        (unwind n (dividePos init mid).1 >>= fun r =>
          some ((mid, (dividePos init mid).2) :: r.1, r.2))
      rw [← hleft, ← ih left, ← hright]
      cases divideLeft n left with
      | error e => rfl
      | ok r => rfl

/-! ## Whole concatenations -/

/-- An info of a piece, built by merging the infos of its parts. -/
inductive Built : Nat → SplitCells → Prop
  | part (size : Nat) (hpos : 0 < size) : Built size new
  | merge {size size' : Nat} {self next s : SplitCells} (hself : Built size self)
      (hnext : Built size' next) (hmerge : self.merge size next = .ok s) : Built (size + size') s

/-- The positions of such an info lie strictly inside the piece. -/
theorem Built.inside {size : Nat} {s : SplitCells} (h : Built size s) :
    0 < size ∧ ∀ x ∈ s.positions, 0 < x ∧ x < size := by
  induction h with
  | part size hpos => exact ⟨hpos, fun x hx => absurd hx (List.not_mem_nil)⟩
  | @merge size size' self next s _ _ hmerge ihself ihnext =>
    refine ⟨by omega, fun x hx => ?_⟩
    rw [positions_of_merge hmerge, mergePos, List.mem_append, List.mem_append, List.mem_map,
      List.mem_singleton] at hx
    rcases hx with (hx | ⟨y, hy, rfl⟩) | rfl
    · have := ihself.2 x hx
      omega
    · have := ihnext.2 y hy
      omega
    · omega

end SplitCells

/-- One input of a concatenation along its axis: its dim, and where its own pieces meet. -/
structure ConcatInput where
  size : Nat
  info : SplitCells
  inside : ∀ x ∈ info.positions, 0 < x ∧ x < size

namespace ConcatInput

open SplitCells (positions)

/-- An input whose info was built by `merge`. -/
def ofBuilt {size : Nat} {s : SplitCells} (h : s.Built size) : ConcatInput := ⟨size, s, h.inside.2⟩

/-- Where each input starts, and its info. -/
def offsets (start : Int) : List ConcatInput → List (Int × SplitCells)
  | [] => []
  | q :: rest => (start, q.info) :: offsets (start + q.size) rest

/-- The positions and the dim of the output. -/
def merged (first : ConcatInput) (rest : List ConcatInput) : List Int × Int :=
  rest.foldl (fun out q => (mergePos out.1 out.2 q.info.positions, out.2 + q.size))
    (first.info.positions, first.size)

theorem merged_concat (first : ConcatInput) (rest : List ConcatInput) (q : ConcatInput) :
    first.merged (rest ++ [q]) = (mergePos (first.merged rest).1 (first.merged rest).2 q.info.positions,
      (first.merged rest).2 + q.size) := by
  rw [merged, List.foldl_append]
  rfl

theorem offsets_append (start : Int) (rest : List ConcatInput) (q : ConcatInput) :
    offsets start (rest ++ [q]) =
      offsets start rest ++ [(start + (rest.map fun r => (r.size : Int)).sum, q.info)] := by
  induction rest generalizing start with
  | nil => rw [List.map_nil, List.sum_nil, add_zero]; rfl
  | cons r rest ih =>
    rw [List.cons_append, offsets, ih, List.map_cons, List.sum_cons, ← add_assoc]
    rfl

theorem merged_snd (first : ConcatInput) (rest : List ConcatInput) :
    (first.merged rest).2 = first.size + (rest.map fun r => (r.size : Int)).sum := by
  induction rest using List.reverseRecOn with
  | nil => rw [List.map_nil, List.sum_nil, add_zero]; rfl
  | append_singleton rest q ih =>
    rw [merged_concat, List.map_append, List.sum_append, ih, List.map_singleton, List.sum_singleton,
      add_assoc]

/-- No position is past the end. -/
theorem merged_le (first : ConcatInput) (rest : List ConcatInput) :
    ∀ x ∈ (first.merged rest).1, x ≤ (first.merged rest).2 := by
  induction rest using List.reverseRecOn with
  | nil => exact fun x hx => (first.inside x hx).2.le
  | append_singleton rest q ih =>
    intro x hx
    rw [merged_concat, mergePos, List.mem_append, List.mem_append, List.mem_map, List.mem_singleton] at hx
    rw [merged_concat]
    rcases hx with (hx | ⟨y, hy, rfl⟩) | rfl
    · have := ih x hx
      dsimp only
      omega
    · have := q.inside y hy
      dsimp only
      omega
    · dsimp only
      omega

/-- The positions are below the end exactly if the last input takes room. -/
theorem merged_lt_iff (first : ConcatInput) (rest : List ConcatInput) :
    (∀ x ∈ (first.merged rest).1, x < (first.merged rest).2) ↔ ∀ q ∈ rest.getLast?, 0 < q.size := by
  induction rest using List.reverseRecOn with
  | nil =>
    exact iff_of_true (fun x hx => (first.inside x hx).2) (fun q hq => by cases hq)
  | append_singleton rest q _ =>
    rw [merged_concat, List.getLast?_concat]
    simp only [Option.mem_def, Option.some.injEq, forall_eq']
    constructor
    · intro h
      -- the offset of the last input is one of the positions
      have := h (first.merged rest).2 (List.mem_append_right _ (List.mem_singleton_self _))
      omega
    · intro hq x hx
      rw [mergePos, List.mem_append, List.mem_append, List.mem_map, List.mem_singleton] at hx
      rcases hx with (hx | ⟨y, hy, rfl⟩) | rfl
      · have := first.merged_le rest x hx
        omega
      · have := q.inside y hy
        omega
      · omega

/-- **All pieces come back** exactly if every input between the first and the last takes room. -/
theorem unwind_merged_iff (first : ConcatInput) (rest : List ConcatInput) :
    unwind rest.length (first.merged rest).1 =
        some ((offsets first.size rest).reverse.map (Prod.map id positions), first.info.positions) ↔
      ∀ q ∈ rest.dropLast, 0 < q.size := by
  induction rest using List.reverseRecOn with
  | nil => exact iff_of_true rfl (fun q hq => by cases hq)
  | append_singleton rest q ih =>
    have hq : ∀ y ∈ q.info.positions, 0 ≤ y := fun y hy => (q.inside y hy).1.le
    have hinner : (∀ r ∈ rest.getLast?, 0 < r.size) ∧ (∀ r ∈ rest.dropLast, 0 < r.size) ↔
        ∀ r ∈ rest, 0 < r.size := by
      rcases List.eq_nil_or_concat rest with rfl | ⟨init, last, rfl⟩
      · simp
      · rw [List.concat_eq_append, List.getLast?_concat, List.dropLast_concat]
        simp [or_imp, forall_and, and_comm]
    rw [List.dropLast_concat, ← hinner, ← ih, ← merged_lt_iff first, List.length_append,
      List.length_singleton, unwind, merged_concat, offsets_append, ← merged_snd, mergePos,
      List.getLast?_concat, List.dropLast_concat, List.reverse_append, List.reverse_singleton,
      List.singleton_append, List.map_cons]
    show (unwind rest.length (dividePos ((first.merged rest).1
        ++ q.info.positions.map ((first.merged rest).2 + ·)) (first.merged rest).2).1 >>= fun r =>
      some (((first.merged rest).2, (dividePos ((first.merged rest).1
        ++ q.info.positions.map ((first.merged rest).2 + ·)) (first.merged rest).2).2) :: r.1, r.2)) =
      some (((first.merged rest).2, q.info.positions)
        :: (offsets first.size rest).reverse.map (Prod.map id positions), first.info.positions) ↔ _
    constructor
    · intro h
      obtain ⟨r, hr, heq⟩ := Option.bind_eq_some_iff.mp h
      simp only [Option.some.injEq, Prod.mk.injEq, List.cons.injEq, true_and] at heq
      obtain ⟨⟨hright, hparts⟩, hlast⟩ := heq
      have hbelow := (dividePos_mergePos_iff hq).mp hright
      rw [dividePos_left hq hbelow] at hr
      exact ⟨hbelow, hr.trans (congrArg some (Prod.ext hparts hlast))⟩
    · rintro ⟨hbelow, hrest⟩
      rw [dividePos_left hq hbelow, (dividePos_mergePos_iff hq).mpr hbelow, hrest]
      rfl

/-- `Concat` on inputs whose positions fit: what it leaves in the split info of its axis. -/
theorem concat_ok (first : ConcatInput) {rest : List ConcatInput}
    (hcount : first.info.num + (rest.map fun q => q.info.num + 1).sum < MAX_NUM_SPLITS) :
    ∃ s, SplitCells.concat first.info first.size (rest.map fun q => ((q.size : Int), q.info)) =
        .ok (s, (first.merged rest).2) ∧
      s.num = first.info.num + (rest.map fun q => q.info.num + 1).sum ∧
      s.positions = (first.merged rest).1 := by
  induction rest using List.reverseRecOn with
  | nil => exact ⟨first.info, rfl, rfl, rfl⟩
  | append_singleton rest q ih =>
    rw [List.map_append, List.sum_append, List.map_singleton, List.sum_singleton] at hcount
    obtain ⟨s, hrun, hnum, hpos⟩ := ih (by omega)
    obtain ⟨s', hmerge, hnum', hpos'⟩ := @SplitCells.merge_ok s q.info (first.merged rest).2
      (by omega)
    refine ⟨s', ?_, ?_, ?_⟩
    · rw [SplitCells.concat, List.map_append, List.foldlM_append]
      show (SplitCells.concat first.info first.size _ >>= _) = _
      rw [hrun, merged_concat]
      show (s.merge (first.merged rest).2 q.info >>= fun split => _) >>= _ = _
      rw [hmerge]
      rfl
    · rw [List.map_append, List.sum_append, List.map_singleton, List.sum_singleton]
      omega
    · rw [hpos', hpos, merged_concat]

/-- What is got back from a concatenation by dividing its info as often as there were inputs after the
first. -/
def ComesBack (first : ConcatInput) (rest : List ConcatInput) : Prop :=
  ∃ s dim parts last,
    SplitCells.concat first.info first.size (rest.map fun q => ((q.size : Int), q.info)) =
      .ok (s, dim) ∧
    SplitCells.divideLeft rest.length s = .ok (parts, last) ∧
    List.Forall₂ (fun part input => part.1 = input.1 ∧ part.2.eq input.2) parts
      (offsets first.size rest).reverse ∧
    last.eq first.info

theorem forall₂_eq_iff {parts inputs : List (Int × SplitCells)} :
    List.Forall₂ (fun part input => part.1 = input.1 ∧ part.2.eq input.2) parts inputs ↔
      parts.map (Prod.map id positions) = inputs.map (Prod.map id positions) := by
  rw [← List.forall₂_eq_eq_eq, List.forall₂_map_left_iff, List.forall₂_map_right_iff]
  simp only [SplitCells.eq_iff, Prod.ext_iff, Prod.map_fst, Prod.map_snd, id_eq]

/-- The same for the positions alone. -/
theorem comesBack_iff_unwind (first : ConcatInput) {rest : List ConcatInput}
    (hcount : first.info.num + (rest.map fun q => q.info.num + 1).sum < MAX_NUM_SPLITS) :
    ComesBack first rest ↔ unwind rest.length (first.merged rest).1 =
      some ((offsets first.size rest).reverse.map (Prod.map id positions), first.info.positions) := by
  obtain ⟨s, hconcat, -, hpos⟩ := concat_ok first hcount
  have hrun := SplitCells.divideLeft_positions rest.length s
  rw [hpos] at hrun
  rw [← hrun]
  constructor
  · rintro ⟨s', dim, parts, last, hconcat', hdivide, hparts, hlast⟩
    rw [hconcat] at hconcat'
    cases hconcat'
    rw [hdivide, ← forall₂_eq_iff.mp hparts, ← (SplitCells.eq_iff last first.info).mp hlast]
    rfl
  · intro h
    obtain ⟨⟨parts, last⟩, hdivide, heq⟩ := Option.map_eq_some_iff.mp h
    obtain ⟨hparts, hlast⟩ := Prod.mk.inj heq
    exact ⟨s, _, parts, last, hconcat, toOption_eq_some.mp hdivide, forall₂_eq_iff.mpr hparts,
      (SplitCells.eq_iff last first.info).mpr hlast⟩

/-- **`divide` undoes a whole concatenation** exactly if every input but the first and the last has a
dim above zero. -/
theorem comesBack_iff (first : ConcatInput) (rest : List ConcatInput)
    (hcount : first.info.num + (rest.map fun q => q.info.num + 1).sum < MAX_NUM_SPLITS) :
    ComesBack first rest ↔ ∀ q ∈ rest.dropLast, 0 < q.size :=
  (comesBack_iff_unwind first hcount).trans (unwind_merged_iff first rest)

/-- An input with no pieces of its own. -/
def whole (size : Nat) : ConcatInput := ⟨size, SplitCells.new, fun _ hx => absurd hx List.not_mem_nil⟩

theorem maxNumSplits_pos : 0 < MAX_NUM_SPLITS := by decide

/-- An input of 5 that was itself put together from 2 and 3. -/
def twoAndThree : ConcatInput where
  size := 5
  info := ⟨1, (Vector.replicate _ 0).set 0 2 maxNumSplits_pos, maxNumSplits_pos⟩
  inside := by decide

/-- Dims 1, 5 and 0, the second with a position of its own. -/
theorem comesBack_twoAndThree : ComesBack (whole 1) [twoAndThree, whole 0] :=
  (comesBack_iff (whole 1) [twoAndThree, whole 0] (by decide)).mpr (by decide)

/-- Dims 2, 0 and 3: both inputs after the first start at 2, and the first division takes the offset of
the second for a position of the third. -/
theorem comesBack_emptyInput :
    ¬ ComesBack (whole 2) [whole 0, whole 3] ∧
      (SplitCells.concat SplitCells.new 2 [(0, SplitCells.new), (3, SplitCells.new)] >>= fun out =>
        out.1.divide SplitCells.new SplitCells.new).map
          (fun r => (r.1, r.2.1.positions, r.2.2.positions)) = .ok (2, [], [0]) := by
  refine ⟨?_, by decide +kernel⟩
  rw [comesBack_iff_unwind (whole 2) (by decide)]
  decide +kernel

end ConcatInput

end Peps
