/-
# `PureDataPacket.Object.MatVec` — lists and vectors

`pdp_m_list2vec` makes a vector packet of a list and passes it on, `pdp_m_vec2list` makes a list of
a vector packet.  Both are packet processors without a process method, whose work is done before the
task or after it: the first one puts its packet into the slot of the hot inlet itself, and the
second one takes it out again.

| | |
| :-- | :-- |
| `Sound` | the object owns the packet in its slot, and nothing else; nothing gets lost or twice |
| `Spared` | what is taken out becomes a list, and no packet that waits for its task is replaced |
| `matVec_sound` | in every run of such steps; and a list comes back as it was |

For a `float` that is stored as a `double` and read back the value is the same.  The array of a
list only grows, so that one that is too long is longer than all lists before it.
-/
import PureDataPacket.Image.Values
import PureDataPacket.Lib.Alloc
import PureDataPacket.Object.Base
import PureDataPacket.Object.Holdings

namespace PureDataPacket

namespace MatVec

/-! ## Lists and packets -/

/-- `t_atom`. -/
inductive Atom where
  | float (v : ℚ)
  | symbol

/-- `GETFLOAT` -/
def getFloat : Atom → ℚ
  | .float v => v
  | .symbol => 0

/-- What a packet is: a matrix, with the numbers of its elements, or something else. -/
inductive Content where
  | matrix (rows columns : Nat) (type : MatrixType) (data : List ℚ)
  | other

/-- `pdp_packet_matrix_isvector` -/
def isvector : Content → Bool
  | .matrix rows columns _ _ => rows = 1 || columns = 1
  | .other => false

/-- The vector that `pdp_mat_vec_list_in` makes of a list that it does not reject. -/
def listIn (type : MatrixType) (argv : List Atom) : Option Content :=
  let argc := argv.length
  if argc = 0 then none
  else
    let data := argv.map getFloat
    match type with
    | .rfloat => some (.matrix argc 1 type data)
    | .rdouble => some (.matrix argc 1 type data)
    | .cfloat => if argc % 2 = 1 then none else some (.matrix (argc / 2) 1 type data)
    | .cdouble => if argc % 2 = 1 then none else some (.matrix (argc / 2) 1 type data)

/-- `outlist_size`, of a vector -/
def outlistSize : Content → Nat
  | .matrix rows columns type _ => (if columns = 1 then rows else columns) * type.cells
  | .other => 0

/-- The list that `pdp_mat_vec_list_out` makes of a packet, if it is a vector and there is an array
for so many atoms. -/
def listOut (content : Content) : Option (List ℚ) :=
  match content with
  | .matrix _ _ _ data =>
      if isvector content then
        (pdpAlloc (16 * outlistSize content)).map fun _ =>
          (List.range (outlistSize content)).map fun i => data.getD i 0
      else none
  | .other => none

/-- A packet that becomes a list. -/
structure Listed (content : Content) : Prop where
  isvector : isvector content = true
  size_lt : 16 * outlistSize content < 2 ^ 31

end MatVec

open MatVec in
/-- `t_pdp_mat_vec`: the object, what is in the packet of its slot, what it owns, and what has been
in the slot, has left it after a task, and was put out as a list. -/
structure MatVec where
  xAcceptList : Bool
  xType : MatrixType
  packet : Int
  queueId : Int
  threadEnabled : Bool
  task : Option TaskPhase
  freed : Bool
  content : Content
  owned : Holdings
  /-- a packet was released that was waiting for its task -/
  releasedPending : Bool
  taken : List Content
  done : List Content
  out : List (List ℚ)

namespace MatVec

/-- `pdp_mat_vec_list2vec_new` and `pdp_mat_vec_vec2list_new`. -/
def new (acceptList : Bool) (type : MatrixType) : MatVec where
  xAcceptList := acceptList
  xType := type
  packet := -1
  queueId := -1
  threadEnabled := true
  task := none
  freed := false
  content := .other
  owned := .empty
  releasedPending := false
  taken := []
  done := []
  out := []

/-! ## The methods -/

/-- `pdp_packet_mark_unused`, of the packet in the slot. -/
def markUnused (p : Int) (x : MatVec) : MatVec :=
  { x with
    owned := x.owned.markUnused p
    releasedPending := x.releasedPending || (p ≠ -1 && x.task.isSome) }

/-- What the packet of the slot is, if there is one. -/
def held (x : MatVec) : List Content := if x.packet = -1 then [] else [x.content]

/-- `pdp_mat_vec_list_out`.  Without a packet it returns like with one that is not a vector; where
there is no array for the list the program stops, and the packet is not released either. -/
def pdpMatVecListOut (x : MatVec) : MatVec :=
  let p := x.packet
  let x := { x with done := x.done ++ x.held, packet := -1 }
  match (if p = -1 then none else listOut x.content) with
  | none => x
  | some l =>
      let x := x.markUnused p
      { x with out := x.out ++ [l] }

/-- `pdp_packet_pass_if_valid`: others copy the packet, and it is released. -/
def passIfValid (x : MatVec) : MatVec :=
  if x.packet = -1 then x
  else { x.markUnused x.packet with done := x.done ++ x.held, packet := -1 }

/-- `pdp_base_postprocess`.  One of the two has `b_postproc_method`, the other an outlet for
packets. -/
def postprocess (x : MatVec) : MatVec :=
  if x.xAcceptList then x.passIfValid else x.pdpMatVecListOut

/-- `pdp_base_bang`.  `mode` is what `pdp_procqueue_add` does, and `slot` the queue id. -/
def bang (mode : Mode) (slot : Nat) (x : MatVec) : MatVec :=
  if x.queueId ≠ -1 then x
  else if x.threadEnabled then
    match mode with
    | .direct => x.postprocess
    | .full => x.postprocess
    | .queued => { x with queueId := slot, task := some .queued }
  else x.postprocess

/-- `register_ro` in `pdp_base_input_hot`; `r` is the copy. -/
def registerRo (r : Int) (content : Content) (x : MatVec) : MatVec :=
  if x.xAcceptList then x
  else if x.packet = -1 then { x with
    packet := r
    owned := x.owned.receive r
    content := content
    taken := if r = -1 then x.taken else x.taken ++ [content] }
  else x

/-- `process` in `pdp_base_input_hot`. -/
def process (mode : Mode) (slot : Nat) (x : MatVec) : MatVec :=
  if x.xAcceptList then x
  else if x.packet ≠ -1 ∧ x.queueId = -1 then x.bang mode slot
  else x

/-- `pdp_base_set_packet`, of a packet that has just been made. -/
def setPacket (vp : Int) (content : Content) (x : MatVec) : MatVec :=
  let x := { x with owned := x.owned.receive vp }
  { x.markUnused x.packet with packet := vp, content := content, taken := x.taken ++ [content] }

/-- `pdp_mat_vec_list_in`; `vp` is what `pdp_packet_new_matrix` returns. -/
def pdpMatVecListIn (argv : List Atom) (vp : Int) (mode : Mode) (slot : Nat) (x : MatVec) :
    MatVec :=
  if x.xAcceptList then
    match listIn x.xType argv with
    | none => x
    | some content => if vp = -1 then x else (x.setPacket vp content).bang mode slot
  else x

/-! ## Runs -/

inductive Act where
  | registerRo (r : Int) (content : Content)
  | process (mode : Mode) (slot : Nat)
  | list (argv : List Atom) (vp : Int) (mode : Mode) (slot : Nat)
  | thread (b : Bool)
  /-- the worker calls the process method, which there is none of -/
  | start
  | finish
  /-- the callback loop gets to the task -/
  | callback
  /-- `pdp_base_free`: `pdp_procqueue_finish` waits for the worker, and drops the callback -/
  | free

/-- A message to the object, or a step of its task. -/
def step (x : MatVec) : Act → Option MatVec
  | .registerRo r content => if x.freed then none else some (x.registerRo r content)
  | .process mode slot => if x.freed then none else some (x.process mode slot)
  | .list argv vp mode slot => if x.freed then none else some (x.pdpMatVecListIn argv vp mode slot)
  | .thread b => if x.freed then none else some { x with threadEnabled := b }
  | .start => if x.task = some .queued then some { x with task := some .running } else none
  | .finish => if x.task = some .running then some { x with task := some .finished } else none
  | .callback =>
      if x.task = some .finished then some ({ x with queueId := -1, task := none }.postprocess)
      else none
  | .free =>
      if x.freed = false ∧ (x.task = none ∨ x.task = some .finished) then
        some { ({ x with task := none }.markUnused x.packet) with packet := -1, freed := true }
      else none

/-- The runs of an object whose steps are of this kind. -/
inductive Run (ok : MatVec → Act → Prop) (acceptList : Bool) (type : MatrixType) : MatVec → Prop
  | new : Run ok acceptList type (new acceptList type)
  | step {x x' : MatVec} {a : Act} : Run ok acceptList type x → ok x a → x.step a = some x' →
      Run ok acceptList type x'

/-- The object owns the packet of its slot and nothing else, and has never released what it did not
own, or what waited for its task; what was in the slot has left it in order after a task, and as
lists, if it makes lists. -/
structure Sound (x : MatVec) : Prop where
  owned : x.owned.Balanced [x.packet]
  pending : x.releasedPending = false
  done : x.freed = false → x.taken = x.done ++ x.held
  out : x.xAcceptList = false → x.done.map listOut = x.out.map some

/-- The method that is called after a task is called in this step. -/
def postprocesses (x : MatVec) : Act → Bool
  | .process mode _ => x.queueId = -1 && !(x.threadEnabled && mode = .queued)
  | .callback => true
  | _ => false

/-- A packet that `pdp_mat_vec_list_out` gets is a vector that a list can be made of, and while a
task is pending no list is accepted if there is a packet. -/
def Spared (x : MatVec) (a : Act) : Prop :=
  (x.xAcceptList = false → x.postprocesses a = true → x.packet ≠ -1 → Listed x.content) ∧
  ∀ argv vp mode slot, a = .list argv vp mode slot → x.xAcceptList = true →
    (listIn x.xType argv).isSome → vp ≠ -1 → x.task ≠ none → x.packet = -1

/-! ## There and back -/

theorem Listed.listOut {content : Content} (h : Listed content) : (listOut content).isSome := by
  cases content with
  | matrix rows columns type data =>
      unfold MatVec.listOut
      dsimp only
      rw [if_pos h.isvector, pdpAlloc_eq_some.mpr h.size_lt]
      rfl
  | other => cases h.isvector

theorem listOut_vector {type : MatrixType} {dim : Nat} {l : List ℚ}
    (h : dim * type.cells = l.length) :
    listOut (.matrix dim 1 type l) = some l ↔ 16 * l.length < 2 ^ 31 := by
  have hvector : isvector (.matrix dim 1 type l) = true := by
    unfold isvector
    simp only [decide_true, Bool.or_true]
  have hsize : outlistSize (.matrix dim 1 type l) = l.length := by
    show (if 1 = 1 then dim else 1) * type.cells = l.length
    rw [if_pos rfl, h]
  unfold listOut
  dsimp only
  rw [if_pos hvector, hsize, map_getD_range, ← pdpAlloc_eq_some]
  cases pdpAlloc (16 * l.length) with
  | none => exact iff_of_false (fun hl => by cases hl) fun hl => by cases hl
  | some _ => exact iff_of_true rfl rfl

/-- A list of floats that is accepted comes back if there is an array for it. -/
theorem listOut_listIn {type : MatrixType} {l : List ℚ} {content : Content}
    (h : listIn type (l.map .float) = some content) :
    listOut content = some l ↔ 16 * l.length < 2 ^ 31 := by
  have hdata : (l.map Atom.float).map getFloat = l := by
    rw [List.map_map]
    exact List.map_id l
  unfold listIn at h
  dsimp only at h
  rw [hdata, List.length_map] at h
  split at h
  · cases h
  · cases type with
    | rfloat =>
        cases h
        exact listOut_vector (Nat.mul_one _)
    | rdouble =>
        cases h
        exact listOut_vector (Nat.mul_one _)
    | cfloat =>
        dsimp only at h
        split at h
        · cases h
        · cases h
          refine listOut_vector ?_
          change l.length / 2 * 2 = l.length
          omega
    | cdouble =>
        dsimp only at h
        split at h
        · cases h
        · cases h
          refine listOut_vector ?_
          change l.length / 2 * 2 = l.length
          omega

/-! ## One step -/

/-- The queue id says if there is a task. -/
structure Inv (x : MatVec) : Prop extends Sound x where
  idle : x.freed = false → (x.queueId = -1 ↔ x.task = none)

section Steps

variable {x x' : MatVec} {a : Act} {acceptList : Bool} {type : MatrixType}

theorem inv_new : Inv (new acceptList type) where
  owned := Holdings.balanced_empty fun _ hp => List.mem_singleton.mp hp
  pending := rfl
  done _ := rfl
  out _ := rfl
  idle _ := iff_of_true rfl rfl

theorem held_none (h : x.packet = -1) : x.held = [] := if_pos h

theorem held_some (h : x.packet ≠ -1) : x.held = [x.content] := if_neg h

/-- The packet of the slot is released while no task is pending. -/
theorem Inv.release (h : x.Inv) (htask : x.task = none) :
    (x.markUnused x.packet).owned.Balanced [-1] ∧
      (x.markUnused x.packet).releasedPending = false := by
  refine ⟨h.owned.release.cons, ?_⟩
  unfold markUnused
  rw [htask, h.pending, Option.isSome_none, Bool.and_false, Bool.or_false]

/-- A vector is taken out, put out as a list, and released. -/
theorem Inv.listOut (h : x.Inv) (hfreed : x.freed = false) (htask : x.task = none)
    (haccept : x.xAcceptList = false)
    (hvector : x.packet ≠ -1 → Listed x.content) : x.pdpMatVecListOut.Inv := by
  have hdone := h.done hfreed
  unfold pdpMatVecListOut
  dsimp only
  by_cases hp : x.packet = -1
  · rw [if_pos hp]
    refine { h with owned := hp ▸ h.owned, done := fun _ => ?_, out := fun _ => ?_ }
    · change x.taken = x.done ++ x.held ++ []
      rw [List.append_nil, hdone]
    · change (x.done ++ x.held).map MatVec.listOut = x.out.map some
      rw [held_none hp, List.append_nil, h.out haccept]
  · rw [if_neg hp]
    obtain ⟨l, hl⟩ := Option.isSome_iff_exists.mp (hvector hp).listOut
    rw [hl]
    obtain ⟨howned, hpending⟩ := h.release htask
    refine ⟨⟨howned, hpending, fun _ => ?_, fun _ => ?_⟩, h.idle⟩
    · change x.taken = x.done ++ x.held ++ []
      rw [List.append_nil, hdone]
    · change (x.done ++ x.held).map MatVec.listOut = (x.out ++ [l]).map some
      rw [held_some hp, List.map_append, List.map_append, h.out haccept, List.map_singleton,
        List.map_singleton, hl]

theorem Inv.passIfValid (h : x.Inv) (hfreed : x.freed = false) (htask : x.task = none)
    (haccept : x.xAcceptList = true) : x.passIfValid.Inv := by
  unfold MatVec.passIfValid
  split
  · exact h
  · obtain ⟨howned, hpending⟩ := h.release htask
    refine ⟨⟨howned, hpending, fun _ => ?_, fun hfalse => ?_⟩, h.idle⟩
    · change x.taken = x.done ++ x.held ++ []
      rw [List.append_nil, h.done hfreed]
    · cases haccept.symm.trans hfalse

theorem Inv.postprocess (h : x.Inv) (hfreed : x.freed = false) (htask : x.task = none)
    (hvector : x.xAcceptList = false → x.packet ≠ -1 → Listed x.content) :
    x.postprocess.Inv := by
  unfold MatVec.postprocess
  split
  · next haccept => exact h.passIfValid hfreed htask haccept
  · next haccept =>
      have hfalse := eq_false_of_ne_true haccept
      exact h.listOut hfreed htask hfalse (hvector hfalse)

theorem Inv.setPacket (h : x.Inv) (hfreed : x.freed = false) (haccept : x.xAcceptList = true)
    {vp : Int} {content : Content} (hvp : vp ≠ -1) (hpacket : x.packet = -1) :
    (x.setPacket vp content).Inv := by
  refine ⟨⟨?_, ?_, fun _ => ?_, fun hfalse => ?_⟩, h.idle⟩
  · exact ((h.owned.take vp).perm (.swap _ _ _)).release
  · change (x.releasedPending || (decide (x.packet ≠ -1) && x.task.isSome)) = false
    simp only [h.pending, hpacket, ne_eq, not_true_eq_false, decide_false, Bool.false_and,
      Bool.or_false]
  · change x.taken ++ [content] = x.done ++ if vp = -1 then [] else [content]
    rw [if_neg hvp, h.done hfreed, held_none hpacket, List.append_nil]
  · cases haccept.symm.trans hfalse

/-! ## Runs of steps -/

/-- Between two steps the slot of `pdp_m_list2vec` is empty if there is no task; and when the object
is deleted there is none. -/
structure Settled (x : MatVec) : Prop extends Inv x where
  empty : x.xAcceptList = true → x.freed = false → x.task = none → x.packet = -1
  ended : x.freed = true → x.task = none

theorem packet_passIfValid : x.passIfValid.packet = -1 := by
  unfold MatVec.passIfValid
  split
  · next hp => exact hp
  · rfl

theorem postprocess_frame : x.postprocess.freed = x.freed ∧
    x.postprocess.xAcceptList = x.xAcceptList := by
  unfold MatVec.postprocess MatVec.passIfValid pdpMatVecListOut
  dsimp only
  split
  · split
    · exact ⟨rfl, rfl⟩
    · exact ⟨rfl, rfl⟩
  · split
    · exact ⟨rfl, rfl⟩
    · exact ⟨rfl, rfl⟩

theorem Inv.settled_postprocess (h : x.Inv) (hfreed : x.freed = false) (htask : x.task = none)
    (hvector : x.xAcceptList = false → x.packet ≠ -1 → Listed x.content) :
    x.postprocess.Settled := by
  refine ⟨h.postprocess hfreed htask hvector, fun haccept _ _ => ?_, fun htrue => ?_⟩
  · rw [postprocess_frame.2] at haccept
    unfold MatVec.postprocess
    rw [if_pos haccept]
    exact packet_passIfValid
  · rw [postprocess_frame.1, hfreed] at htrue
    cases htrue

/-- The task is queued, or all is done at once. -/
theorem Inv.bang (h : x.Inv) (hfreed : x.freed = false) {mode : Mode} {slot : Nat}
    (hempty : x.task ≠ none → x.Settled)
    (hvector : x.xAcceptList = false → (x.threadEnabled && mode = .queued) = false →
      x.packet ≠ -1 → Listed x.content) : (x.bang mode slot).Settled := by
  unfold MatVec.bang
  split
  · next hid => exact hempty fun htask => hid ((h.idle hfreed).mpr htask)
  · next hid =>
      have htask := (h.idle hfreed).mp (not_not.mp hid)
      split
      · cases mode with
        | direct =>
            exact h.settled_postprocess hfreed htask fun ha => hvector ha (Bool.and_false _)
        | full =>
            exact h.settled_postprocess hfreed htask fun ha => hvector ha (Bool.and_false _)
        | queued =>
            refine ⟨⟨⟨h.owned, h.pending, h.done, h.out⟩, fun _ => iff_of_false ?_ ?_⟩,
              fun _ _ htask => absurd htask (Option.some_ne_none _),
              fun htrue => absurd (hfreed.symm.trans htrue) Bool.false_ne_true⟩
            · change (slot : Int) ≠ -1
              omega
            · exact Option.some_ne_none _
      · next hthread =>
          refine h.settled_postprocess hfreed htask fun ha => hvector ha ?_
          rw [eq_false_of_ne_true hthread, Bool.false_and]

theorem Settled.registerRo (h : x.Settled) (hfreed : x.freed = false) (r : Int)
    (content : Content) : (x.registerRo r content).Settled := by
  unfold MatVec.registerRo
  split
  · exact h
  · next haccept =>
      split
      · next hpacket =>
          refine ⟨⟨⟨?_, h.pending, fun _ => ?_, h.out⟩, h.idle⟩, fun ha => absurd ha haccept,
            h.ended⟩
          · have howned := (h.owned.take r).perm (.swap _ _ _)
            rw [hpacket] at howned
            exact howned.drop
          · have hdone := h.done hfreed
            rw [held_none hpacket, List.append_nil] at hdone
            change (if r = -1 then x.taken else x.taken ++ [content]) =
              x.done ++ if r = -1 then [] else [content]
            rw [hdone]
            split
            · rw [List.append_nil]
            · rfl
      · exact h

theorem Settled.process (h : x.Settled) (hfreed : x.freed = false) {mode : Mode} {slot : Nat}
    (hspared : Spared x (.process mode slot)) : (x.process mode slot).Settled := by
  unfold MatVec.process
  split
  · exact h
  · split
    · next hready =>
        refine h.toInv.bang hfreed (fun _ => h) fun ha hqueued => hspared.1 ha ?_
        change (decide (x.queueId = -1) && !(x.threadEnabled && decide (mode = .queued))) = true
        rw [hqueued, hready.2]
        rfl
    · exact h

theorem Settled.list (h : x.Settled) (hfreed : x.freed = false) {argv : List Atom} {vp : Int}
    {mode : Mode} {slot : Nat} (hspared : Spared x (.list argv vp mode slot)) :
    (x.pdpMatVecListIn argv vp mode slot).Settled := by
  unfold pdpMatVecListIn
  split
  · next haccept =>
      split
      · exact h
      · next content hcontent =>
          split
          · exact h
          · next hvp =>
              have hsome : (listIn x.xType argv).isSome := by
                rw [hcontent]
                rfl
              have hpacket : x.packet = -1 := by
                by_cases htask : x.task = none
                · exact h.empty haccept hfreed htask
                · exact hspared.2 argv vp mode slot rfl haccept hsome hvp htask
              refine (h.setPacket hfreed haccept hvp hpacket).bang hfreed (fun htask => ?_)
                fun ha => absurd (haccept.symm.trans ha) Bool.true_eq_false.mp
              exact ⟨h.setPacket hfreed haccept hvp hpacket, fun _ _ hnone => absurd hnone htask,
                h.ended⟩
  · exact h

theorem Settled.callback (h : x.Settled) (htask : x.task = some .finished)
    (hspared : Spared x .callback) :
    Settled (MatVec.postprocess { x with queueId := -1, task := none }) := by
  have hfreed : x.freed = false := by
    refine eq_false_of_ne_true fun htrue => ?_
    cases htask.symm.trans (h.ended htrue)
  have hinv : Inv { x with queueId := -1, task := none } :=
    ⟨⟨h.owned, h.pending, h.done, h.out⟩, fun _ => iff_of_true rfl rfl⟩
  exact hinv.settled_postprocess hfreed rfl fun ha => hspared.1 ha rfl

theorem Settled.free (h : x.Settled) : Settled
    { (MatVec.markUnused x.packet { x with task := none }) with packet := -1, freed := true } := by
  have howned := h.owned.release.cons
  refine ⟨⟨⟨howned, ?_, fun hfalse => ?_, h.out⟩, fun hfalse => ?_⟩, fun _ hfalse => ?_,
    fun _ => rfl⟩
  · change (x.releasedPending || (_ && false)) = false
    rw [h.pending, Bool.and_false, Bool.or_false]
  · cases hfalse
  · cases hfalse
  · cases hfalse

theorem Settled.task (h : x.Settled) {phase phase' : TaskPhase} (htask : x.task = some phase) :
    Settled { x with task := some phase' } := by
  refine ⟨⟨⟨h.owned, h.pending, h.done, h.out⟩, fun hfreed => ?_⟩,
    fun _ _ hnone => absurd hnone (Option.some_ne_none _), fun htrue => ?_⟩
  · refine iff_of_false (fun hid => ?_) (Option.some_ne_none _)
    cases htask.symm.trans ((h.idle hfreed).mp hid)
  · cases htask.symm.trans (h.ended htrue)

theorem Settled.step (h : x.Settled) (hspared : Spared x a) (hstep : x.step a = some x') :
    x'.Settled := by
  cases a with
  | registerRo r content =>
      obtain ⟨hfreed, heq⟩ := Option.ite_none_left_eq_some.mp hstep
      cases heq
      exact h.registerRo (eq_false_of_ne_true hfreed) r content
  | process mode slot =>
      obtain ⟨hfreed, heq⟩ := Option.ite_none_left_eq_some.mp hstep
      cases heq
      exact h.process (eq_false_of_ne_true hfreed) hspared
  | list argv vp mode slot =>
      obtain ⟨hfreed, heq⟩ := Option.ite_none_left_eq_some.mp hstep
      cases heq
      exact h.list (eq_false_of_ne_true hfreed) hspared
  | thread b =>
      obtain ⟨_, heq⟩ := Option.ite_none_left_eq_some.mp hstep
      cases heq
      exact ⟨⟨⟨h.owned, h.pending, h.done, h.out⟩, h.idle⟩, h.empty, h.ended⟩
  | start =>
      obtain ⟨htask, heq⟩ := Option.ite_none_right_eq_some.mp hstep
      cases heq
      exact h.task htask
  | finish =>
      obtain ⟨htask, heq⟩ := Option.ite_none_right_eq_some.mp hstep
      cases heq
      exact h.task htask
  | callback =>
      obtain ⟨htask, heq⟩ := Option.ite_none_right_eq_some.mp hstep
      cases heq
      exact h.callback htask hspared
  | free =>
      obtain ⟨_, heq⟩ := Option.ite_none_right_eq_some.mp hstep
      cases heq
      exact h.free

theorem Run.settled (h : Run Spared acceptList type x) : x.Settled := by
  induction h with
  | new => exact ⟨inv_new, fun _ _ _ => rfl, fun _ => rfl⟩
  | step _ hspared hstep ih => exact ih.step hspared hstep

end Steps

/-! ## Every run -/

section Every

variable {x : MatVec} {acceptList : Bool} {type : MatrixType}

/-- In every run of spared steps the references are balanced; and a list comes back as it was,
exactly if there is an array for it. -/
theorem matVec_sound (h : Run Spared acceptList type x) : x.Sound ∧
    ∀ (type : MatrixType) (l : List ℚ) (content : Content),
      listIn type (l.map .float) = some content →
        (listOut content = some l ↔ 16 * l.length < 2 ^ 31) :=
  ⟨h.settled.toSound, fun _ _ _ => listOut_listIn⟩

/-- A vector packet becomes a list. -/
theorem matVec_sound_vector : ∃ x, Run Spared false .rfloat x ∧ x.out = [[1, 2]] ∧ x.Sound := by
  have hspared : Spared (new false .rfloat) (.registerRo 0 (.matrix 2 1 .rfloat [1, 2])) :=
    ⟨fun _ hpost => (by cases hpost), fun _ _ _ _ ha => (by cases ha)⟩
  have hregistered : Run Spared false .rfloat _ := .step .new hspared rfl
  have hprocessed : Run Spared false .rfloat _ :=
    .step hregistered ⟨fun _ _ _ => ⟨rfl, by decide⟩, fun _ _ _ _ ha => by cases ha⟩
      (show step _ (.process .direct 0) = some _ from rfl)
  exact ⟨_, hprocessed, rfl, (matVec_sound hprocessed).1⟩

/-- A packet that is not a vector is never released; and a list that comes while the task of another
one is pending releases the packet of this one. -/
theorem not_matVec_sound :
    (∃ x, Run (fun _ _ => True) false .rfloat x ∧ ¬ x.owned.Balanced [x.packet]) ∧
    ∃ x, Run (fun _ _ => True) true .rfloat x ∧ x.releasedPending = true := by
  constructor
  · have hregistered : Run (fun _ _ => True) false .rfloat _ :=
      .step .new trivial (show step _ (.registerRo 0 .other) = some _ from rfl)
    have hprocessed : Run (fun _ _ => True) false .rfloat _ :=
      .step hregistered trivial (show step _ (.process .direct 0) = some _ from rfl)
    refine ⟨_, hprocessed, fun h => ?_⟩
    have hcount := h.count 0
    exact absurd hcount (by decide)
  · have hqueued : Run (fun _ _ => True) true .rfloat _ :=
      .step .new trivial (show step _ (.list [.float 1] 0 .queued 0) = some _ from rfl)
    have hreplaced : Run (fun _ _ => True) true .rfloat _ :=
      .step hqueued trivial (show step _ (.list [.float 2] 1 .queued 0) = some _ from rfl)
    exact ⟨_, hreplaced, rfl⟩

end Every

end MatVec

end PureDataPacket
