import Peps.Dbocg.Model

/-!
# The operators a `Model` issues

A request that returns an operator gives it the next guid and a body of the kind that was asked
for, whether that body is new or comes out of a table: the keys of a table begin with the
parameters, so a body found under a key has them. (Its *shapes* may be another request's.)
-/

namespace Peps

open Lib

/-! ## Tables -/

theorem lookupOrBuild_sound {P : Key → OpBase → Prop} {table table' : OpTable} {key : Key}
    {build : Except PyError OpBase} {p : OpBase} (htable : ∀ entry ∈ table, P entry.1 entry.2)
    (hbuild : ∀ q, build = .ok q → P key q)
    (h : lookupOrBuild table key build = .ok (p, table')) :
    P key p ∧ ∀ entry ∈ table', P entry.1 entry.2 := by
  rcases lookupOrBuild_cases h with ⟨hhit, rfl⟩ | ⟨hnew, rfl⟩
  · exact ⟨htable _ (mem_of_lookupKey hhit), htable⟩
  · refine ⟨hbuild p hnew, fun entry hentry => ?_⟩
    rcases List.mem_cons.mp hentry with rfl | hentry
    · exact hbuild p hnew
    · exact htable entry hentry

/-- A body with the parameters of a convolution, under a key that begins with them. -/
structure ConvEntry (key : Key) (p : OpBase) : Prop where
  numInputs : p.numInputs = 2
  type : p.type = .OP_CONV2D
  params : ∀ strideH strideW padding activation,
    key.take 4 = [.int strideH, .int strideW, .padding padding, .acti activation] →
    p.params = .conv2d strideH strideW padding activation

structure ElementEntry (key : Key) (p : OpBase) : Prop where
  numInputs : p.numInputs = 2
  type : key.take 1 = [.opType p.type]
  params : p.params = .none

namespace Model

structure Sound (m : Model) : Prop where
  numbered : GUID_PRESERVED < m.global_unique_id
  conv2d : ∀ entry ∈ m.conv2d, ConvEntry entry.1 entry.2
  element : ∀ entry ∈ m.element, ElementEntry entry.1 entry.2
  reshape : ∀ entry ∈ m.reshape, entry.2.numInputs = 1
  activation : ∀ entry ∈ m.activation, entry.2.numInputs = 1
  pool2d : ∀ entry ∈ m.pool2d, entry.2.numInputs = 2
  matmul : ∀ entry ∈ m.matmul, entry.2.numInputs = 2

theorem sound_new (tag : Nat) : (Model.new tag).Sound where
  numbered := by show 19 < 100; decide
  conv2d := fun _ h => (by cases h)
  element := fun _ h => (by cases h)
  reshape := fun _ h => (by cases h)
  activation := fun _ h => (by cases h)
  pool2d := fun _ h => (by cases h)
  matmul := fun _ h => (by cases h)

/-- `m` has issued `op`, with a body of the kind `P`. -/
structure Issued (m : Model) (P : OpBase → Prop) (op : Op) (m' : Model) : Prop where
  op : ∃ p, op = ⟨m.global_unique_id, some p⟩ ∧ P p
  sound : m'.Sound
  next : m'.global_unique_id = m.global_unique_id + 1

variable {m m' : Model} {op : Op}

theorem Issued.weaken {P Q : OpBase → Prop} (h : Issued m P op m') (hPQ : ∀ p, P p → Q p) :
    Issued m Q op m' := by
  obtain ⟨p, hop, hp⟩ := h.op
  exact ⟨⟨p, hop, hPQ p hp⟩, h.sound, h.next⟩

-- `m1` is `m` with a table changed
theorem issued_wrap {P : OpBase → Prop} {m1 : Model} {p : OpBase} (h : m1.wrap p = (op, m'))
    (hm : m1.Sound) (hguid : m1.global_unique_id = m.global_unique_id) (hp : P p) :
    Issued m P op m' := by
  cases h
  exact ⟨⟨p, by rw [← hguid], hp⟩, ⟨Nat.lt_succ_of_lt hm.numbered, hm.conv2d, hm.element,
    hm.reshape, hm.activation, hm.pool2d, hm.matmul⟩, by rw [← hguid]⟩

/-! ## The requests -/

theorem createInput_issued (hm : m.Sound) {input : Tensor} (h : m.createInput input = (op, m')) :
    Issued m (fun p => p.numInputs = 1 ∧ p.type = .OP_INPUT) op m' :=
  issued_wrap h hm rfl ⟨rfl, rfl⟩

theorem createWeight_issued (hm : m.Sound) {weight : Tensor}
    (h : m.createWeight weight = .ok (op, m')) :
    Issued m (fun p => p.numInputs = 1 ∧ p.type = .OP_WEIGHT) op m' := by
  unfold createWeight at h
  split at h
  · cases h
  · rw [Except.ok.injEq] at h
    exact issued_wrap h hm rfl ⟨rfl, rfl⟩

theorem mkConv2D_kind {addr : Nat × Nat} {input weight : Tensor} {strideH strideW : Int}
    {padding : PaddingMode} {activation : ActiMode} {p : OpBase}
    (h : mkConv2D addr input weight strideH strideW padding activation = .ok p) :
    p.numInputs = 2 ∧ p.type = .OP_CONV2D ∧
      p.params = .conv2d strideH strideW padding activation := by
  simp only [mkConv2D, bind_ok_iff] at h
  obtain ⟨_, _, _, _, _, _, _, _, _, _, _, _, _, _, _, _, _, _, _, _, _, _, hp⟩ := h
  cases hp
  exact ⟨rfl, rfl, rfl⟩

theorem conv2d_issued (hm : m.Sound) {input weight : Tensor} {strideH strideW : Int}
    {padding : PaddingMode} {activation : ActiMode}
    (h : m.getOrCreateConv2d input weight strideH strideW padding activation = .ok (op, m')) :
    (op = Op.invalid ∧ m' = m) ∨ Issued m (fun p => p.numInputs = 2 ∧ p.type = .OP_CONV2D ∧
      p.params = .conv2d strideH strideW padding activation) op m' := by
  simp only [getOrCreateConv2d, bind_ok_iff] at h
  obtain ⟨r, -, h⟩ := h
  split at h
  · cases h
    exact Or.inl ⟨rfl, rfl⟩
  · simp only [bind_ok_iff] at h
    obtain ⟨key, hkey, ⟨p, table⟩, hlook, hret⟩ := h
    simp only [conv2DKey, bind_ok_iff] at hkey
    obtain ⟨-, -, -, -, -, -, -, -, -, -, hk⟩ := hkey
    cases hk
    -- the key begins with the four parameters
    have hlead := take_binaryKey
      [.int strideH, .int strideW, .padding padding, .acti activation]
      (Tensor.MAX_KEY_LENGTH * 2 + 4) input weight
    obtain ⟨hentry, htable⟩ := lookupOrBuild_sound hm.conv2d (fun q hq => by
      obtain ⟨hnum, htype, hparams⟩ := mkConv2D_kind hq
      refine ⟨hnum, htype, fun sh sw pd ac hcells => ?_⟩
      rw [show List.take 4 _ = _ from hlead] at hcells
      cases hcells
      exact hparams) hlook
    exact Or.inr (issued_wrap (Except.ok.inj hret) ⟨hm.numbered, htable, hm.element, hm.reshape,
      hm.activation, hm.pool2d, hm.matmul⟩ rfl
      ⟨hentry.numInputs, hentry.type, hentry.params _ _ _ _ hlead⟩)

theorem element_issued (hm : m.Sound) {type : OpType} {t1 t2 : Tensor}
    (h : m.getOrCreateElement type t1 t2 = .ok (op, m')) :
    (op = Op.invalid ∧ m' = m) ∨ Issued m (fun p => p.numInputs = 2 ∧ p.type = type ∧
      p.params = .none) op m' := by
  simp only [getOrCreateElement] at h
  split at h
  · cases h
    exact Or.inl ⟨rfl, rfl⟩
  · simp only [bind_ok_iff] at h
    obtain ⟨⟨p, table⟩, hlook, hret⟩ := h
    have hlead := take_binaryKey [.opType type] (Tensor.MAX_KEY_LENGTH * 2 + 1) t1 t2
    obtain ⟨hentry, htable⟩ := lookupOrBuild_sound hm.element (fun q hq => by
      cases hq
      exact ⟨rfl, hlead, rfl⟩) hlook
    have htype : p.type = type := by
      have hcells := hentry.type
      rw [show List.take 1 (elementKey t1 t2 type) = _ from hlead] at hcells
      cases hcells
      rfl
    exact Or.inr (issued_wrap (Except.ok.inj hret) ⟨hm.numbered, hm.conv2d, htable, hm.reshape,
      hm.activation, hm.pool2d, hm.matmul⟩ rfl ⟨hentry.numInputs, htype, hentry.params⟩)

theorem matmul_issued (hm : m.Sound) {input weight : Tensor} {acti : ActiMode}
    (h : m.getOrCreateMatmul input weight acti = .ok (op, m')) :
    (op = Op.invalid ∧ m' = m) ∨ Issued m (fun p => p.numInputs = 2) op m' := by
  simp only [getOrCreateMatmul] at h
  split at h
  · cases h
    exact Or.inl ⟨rfl, rfl⟩
  · simp only [bind_ok_iff] at h
    obtain ⟨key, -, ⟨p, table⟩, hlook, hret⟩ := h
    obtain ⟨hentry, htable⟩ := lookupOrBuild_sound (P := fun _ p => p.numInputs = 2) hm.matmul
      (fun q hq => by
        simp only [mkMatmul, bind_ok_iff] at hq
        obtain ⟨_, _, _, _, _, _, _, _, hp⟩ := hq
        cases hp
        rfl) hlook
    exact Or.inr (issued_wrap (Except.ok.inj hret) ⟨hm.numbered, hm.conv2d, hm.element, hm.reshape,
      hm.activation, hm.pool2d, htable⟩ rfl hentry)

theorem pool2d_issued (hm : m.Sound) {input weight : Tensor} {type : OpType}
    {kernelH kernelW strideH strideW : Int} {padding : PaddingMode} {activation : ActiMode}
    (h : m.getOrCreatePool2d input weight type kernelH kernelW strideH strideW padding activation =
      .ok (op, m')) : Issued m (fun p => p.numInputs = 2) op m' := by
  simp only [getOrCreatePool2d, bind_ok_iff] at h
  obtain ⟨⟨p, table⟩, hlook, hret⟩ := h
  obtain ⟨hentry, htable⟩ := lookupOrBuild_sound (P := fun _ p => p.numInputs = 2) hm.pool2d
    (fun q hq => by
      simp only [mkPool2D, bind_ok_iff] at hq
      obtain ⟨_, _, _, _, _, _, _, _, hp⟩ := hq
      cases hp
      rfl) hlook
  exact issued_wrap (Except.ok.inj hret) ⟨hm.numbered, hm.conv2d, hm.element,
    hm.reshape, hm.activation, htable, hm.matmul⟩ rfl hentry

theorem activation_issued (hm : m.Sound) {input : Tensor} {type : OpType} {inPlace : Bool}
    (h : m.getOrCreateActivation input type inPlace = .ok (op, m')) :
    Issued m (fun p => p.numInputs = 1) op m' := by
  simp only [getOrCreateActivation, bind_ok_iff] at h
  obtain ⟨⟨p, table⟩, hlook, hret⟩ := h
  obtain ⟨hentry, htable⟩ := lookupOrBuild_sound (P := fun _ p => p.numInputs = 1) hm.activation
    (fun q hq => by cases hq; rfl) hlook
  exact issued_wrap (Except.ok.inj hret) ⟨hm.numbered, hm.conv2d, hm.element,
    hm.reshape, htable, hm.pool2d, hm.matmul⟩ rfl hentry

theorem reshape_issued (hm : m.Sound) {input : Tensor} {shape : List Int}
    (h : m.getOrCreateReshape input shape = .ok (op, m')) :
    Issued m (fun p => p.numInputs = 1) op m' := by
  simp only [getOrCreateReshape, bind_ok_iff] at h
  obtain ⟨⟨p, table⟩, hlook, hret⟩ := h
  obtain ⟨hentry, htable⟩ := lookupOrBuild_sound (P := fun _ p => p.numInputs = 1) hm.reshape
    (fun q hq => by
      unfold mkReshape at hq
      split at hq
      · simp only [bind_ok_iff] at hq
        obtain ⟨-, -, hp⟩ := hq
        cases hp
        rfl
      · cases hq) hlook
  exact issued_wrap (Except.ok.inj hret) ⟨hm.numbered, hm.conv2d, hm.element, htable,
    hm.activation, hm.pool2d, hm.matmul⟩ rfl hentry

theorem transpose_issued (hm : m.Sound) {input : Tensor} {perm : List Int} {shuffle : Bool}
    (h : m.getOrCreateTranspose input perm shuffle = .ok (op, m')) :
    Issued m (fun p => p.numInputs = 1) op m' := by
  simp only [getOrCreateTranspose, bind_ok_iff] at h
  obtain ⟨-, -, p, hp, hret⟩ := h
  simp only [mkTranspose, bind_ok_iff] at hp
  obtain ⟨_, _, _, _, _, _, _, _, hbody⟩ := hp
  cases hbody
  exact issued_wrap (Except.ok.inj hret) hm rfl rfl

end Model

end Peps
