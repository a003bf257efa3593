/-
# `PureDataPacket.Object.Loop` — a packet loop

`pdp_loop` records packets in an array and plays them back.  The numbers of a message have been
converted to an `int`.  There is memory for every array, but its size is passed on as an `int`.

What was asked for and what was stored is remembered beside the object.
-/
import PureDataPacket.Lib.Alloc
import PureDataPacket.Object.PacketLine

namespace PureDataPacket

/-- The last `record` or `store`. -/
structure Recording where
  /-- how many frames it wants -/
  wanted : Int
  /-- in which slot the first one is to be -/
  requested : Int
  /-- the slots where frames were stored since then -/
  slots : List Int
  /-- a reset or another size has moved the head since then -/
  moved : Bool
  deriving DecidableEq

/-- `t_pdp_loop`. -/
structure PdpLoop where
  line : PacketLine
  order : Int
  playHead : Int
  recordHead : Int
  loop : Bool
  recordingFrames : Int
  recording : Recording
  deriving DecidableEq

inductive LoopMessage where
  | registerRo (packet : Int) (pool : Pool)
  | bang
  | reset
  | record (start dur : Int)
  | store (i : Int)
  | seek (i : Int)
  /-- a float -/
  | seekHot (i : Int)
  | stop
  /-- 0 and 1 are `some`, another number changes nothing -/
  | loop (on : Option Bool)
  | size (n : Int) (pool : Pool)

/-- `i %= order; if (i<0) i+= order;`. -/
def wrapSlot (i order : Int) : Int :=
  if i.tmod order < 0 then i.tmod order + order else i.tmod order

/-- `pdp_loop_realsize`, after the conversion. -/
def pdpLoopRealsize (n : Int) : Int := if n ≤ 2 then 2 else n

/-! ## The methods -/

/-- `pdp_loop_new`. -/
def pdpLoopNew (n : Int) : Option PdpLoop := do
  let order := pdpLoopRealsize n
  pdpAlloc (4 * order.toNat)
  return {
    line := .new order.toNat
    order := order
    playHead := 0
    recordHead := 0
    loop := true
    recordingFrames := 0
    recording := ⟨0, 0, [], false⟩ }

namespace PdpLoop

/-- `pdp_loop_input_0`. -/
def register (x : PdpLoop) (packet : Int) (pool : Pool) : Option PdpLoop :=
  if x.recordingFrames = 0 then some x
  else do
    let line ← x.line.replace x.recordHead packet pool
    let frames ← addInt x.recordingFrames (-1)
    let head ← addInt x.recordHead 1
    return { x with
      line := line
      recordHead := head
      recordingFrames := if head = x.order then 0 else frames
      recording := { x.recording with slots := x.recording.slots ++ [x.recordHead] } }

/-- `pdp_loop_bang`. -/
def bang (x : PdpLoop) : Option PdpLoop :=
  if !x.loop && x.order ≤ x.playHead then some x
  else do
    let packet ← x.line.fetch (x.playHead.tmod x.order)
    let head ← addInt x.playHead 1
    return { x with
      line := if packet = -1 then x.line else ⟨x.line.cells, x.line.owned.read packet⟩
      playHead := head }

/-- `pdp_loop_reset`. -/
def reset (x : PdpLoop) : PdpLoop :=
  { x with
    line := x.line.reset
    playHead := 0
    recordHead := 0
    recording := { x.recording with moved := true } }

/-- The head and the counter are set. -/
def request (x : PdpLoop) (start dur : Int) : PdpLoop :=
  { x with
    recordHead := start
    recordingFrames := dur
    recording := ⟨dur, start, [], false⟩ }

/-- `pdp_loop_record`. -/
def record (x : PdpLoop) (start dur : Int) : PdpLoop :=
  let start := wrapSlot start x.order
  x.request start (if dur ≤ 0 then x.order - start else dur)

/-- `pdp_loop_store`. -/
def store (x : PdpLoop) (i : Int) : PdpLoop := x.request (wrapSlot i x.order) 1

/-- `pdp_loop_seek`. -/
def seek (x : PdpLoop) (i : Int) : PdpLoop := { x with playHead := wrapSlot i x.order }

/-- `pdp_loop_seek_hot`. -/
def seekHot (x : PdpLoop) (i : Int) : Option PdpLoop := (x.seek i).bang

/-- `pdp_loop_stop`. -/
def stop (x : PdpLoop) : PdpLoop := { x with recordingFrames := 0 }

/-- `pdp_loop_loop`. -/
def setLoop (x : PdpLoop) (on : Option Bool) : PdpLoop := { x with loop := on.getD x.loop }

/-- The cells of the old array are copied again, from `i` on. -/
def extend (x : PdpLoop) : (n i : Nat) → Pool → PacketLine → Option PacketLine
  | 0, _, _, line => some line
  | n + 1, i, pool, line => do
      let packet ← x.line.fetch ((i : Int).tmod x.order)
      let copy := pdpPacketCopyRo packet pool
      x.extend n (i + 1) copy.2 ⟨line.cells ++ [copy.1], line.owned.receive copy.1⟩

/-- The rest of the array is given up. -/
def shrink (x : PdpLoop) (order : Int) : PacketLine :=
  ⟨x.line.cells.take order.toNat, x.line.owned.markAllUnused (x.line.cells.drop order.toNat)⟩

/-- `pdp_loop_resize`. -/
def resize (x : PdpLoop) (n : Int) (pool : Pool) : Option PdpLoop :=
  let order := pdpLoopRealsize n
  if x.order = order then some x
  else do
    pdpAlloc (4 * order.toNat)
    if x.order < order then
      let line ← x.extend (order - x.order).toNat x.order.toNat pool x.line
      return { x with line := line, order := order }
    else
      return { x with
        line := x.shrink order
        order := order
        playHead := x.playHead.tmod order
        recordHead := x.recordHead.tmod order
        recording := { x.recording with moved := true } }

/-- What the object owns after `pdp_loop_free`. -/
def free (x : PdpLoop) : Holdings := x.reset.line.owned

def handle (x : PdpLoop) : LoopMessage → Option PdpLoop
  | .registerRo packet pool => x.register packet pool
  | .bang => x.bang
  | .reset => some x.reset
  | .record start dur => some (x.record start dur)
  | .store i => some (x.store i)
  | .seek i => some (x.seek i)
  | .seekHot i => x.seekHot i
  | .stop => some x.stop
  | .loop on => some (x.setLoop on)
  | .size n pool => x.resize n pool

def run : PdpLoop → List LoopMessage → Option PdpLoop
  | x, [] => some x
  | x, m :: l => (x.handle m).bind fun x => run x l

/-- The play head can be advanced, and an array has no more bytes than an `int` counts. -/
def Playable (x : PdpLoop) : LoopMessage → Prop
  | .bang => x.playHead < 2 ^ 31 - 1
  | .size n _ => n < 2 ^ 29
  | _ => True

/-- This is so whenever a message comes. -/
def AllPlayable : PdpLoop → List LoopMessage → Prop
  | _, [] => True
  | x, m :: l => x.Playable m ∧ ∀ x', x.handle m = some x' → AllPlayable x' l

end PdpLoop

/-- The numbers of a message are `int`s. -/
def LoopMessage.Converted : LoopMessage → Prop
  | .record start dur => IsInt start ∧ IsInt dur
  | .store i => IsInt i
  | .seek i => IsInt i
  | .seekHot i => IsInt i
  | .size n _ => IsInt n
  | _ => True

/-! ## What it is meant to do -/

/-- No more frames are stored than were asked for, and they are stored one after the other. -/
structure Recording.Right (r : Recording) : Prop where
  stored : (r.slots.length : Int) ≤ r.wanted
  consecutive : r.moved = false →
    r.slots = (List.range r.slots.length).map fun i : Nat => r.requested + i

/-- The array is kept, and both heads are where they can be used. -/
structure LoopInv (x : PdpLoop) : Prop where
  two_le : 2 ≤ x.order
  order_lt : x.order < 2 ^ 31
  length : (x.line.cells.length : Int) = x.order
  kept : x.line.Kept
  play_nonneg : 0 ≤ x.playHead
  record_nonneg : 0 ≤ x.recordHead
  record_lt : x.recordingFrames ≠ 0 → x.recordHead < x.order
  frames_nonneg : 0 ≤ x.recordingFrames
  frames_lt : x.recordingFrames < 2 ^ 31
  right : x.recording.Right
  left : x.recording.slots.length + x.recordingFrames ≤ x.recording.wanted
  next : x.recording.moved = false → x.recordingFrames ≠ 0 →
    x.recordHead = x.recording.requested + x.recording.slots.length

section Loop

variable {x : PdpLoop} {m : LoopMessage} {order i : Int} {pool : Pool}

theorem wrapSlot_mem (i : Int) (horder : 0 < order) :
    0 ≤ wrapSlot i order ∧ wrapSlot i order < order := by
  have hlo := Int.lt_tmod_of_pos i horder
  have hhi := Int.tmod_lt_of_pos i horder
  unfold wrapSlot
  split_ifs <;> omega

theorem two_le_realsize (n : Int) : 2 ≤ pdpLoopRealsize n := by
  unfold pdpLoopRealsize
  split_ifs <;> omega

theorem realsize_lt {n : Int} (hn : n < 2 ^ 29) : pdpLoopRealsize n < 2 ^ 29 := by
  unfold pdpLoopRealsize
  split_ifs <;> omega

theorem extend_spec (hlength : (x.line.cells.length : Int) = x.order) (hpos : 0 < x.order)
    (n i : Nat) (pool : Pool) {line : PacketLine} (hkept : line.Kept) :
    ∃ line', x.extend n i pool line = some line' ∧ line'.Kept ∧
      line'.cells.length = line.cells.length + n := by
  induction n generalizing i pool line with
  | zero => exact ⟨line, rfl, hkept, rfl⟩
  | succ n ih =>
      obtain ⟨k, hk⟩ := Int.eq_ofNat_of_zero_le (Int.tmod_nonneg x.order (Int.natCast_nonneg i))
      have hlt := Int.tmod_lt_of_pos (i : Int) hpos
      have hcell := PacketLine.fetch_eq (x := x.line) (i := k) (by omega)
      have htaken : PacketLine.Kept ⟨line.cells ++ [(pdpPacketCopyRo x.line.cells[k] pool).1],
          line.owned.receive (pdpPacketCopyRo x.line.cells[k] pool).1⟩ :=
        (Holdings.Balanced.take hkept _).perm (List.perm_append_singleton _ _).symm
      obtain ⟨line', hextend, hkept', hcells⟩ :=
        ih (i + 1) (pdpPacketCopyRo x.line.cells[k] pool).2 htaken
      refine ⟨line', ?_, hkept', ?_⟩
      · rw [PdpLoop.extend, hk, hcell, Option.bind_eq_bind, Option.bind_some]
        exact hextend
      · rw [hcells, List.length_append, List.length_singleton]
        omega

namespace LoopInv

theorem new {n : Int} (hn : n < 2 ^ 29) : ∃ x, pdpLoopNew n = some x ∧ LoopInv x := by
  have htwo := two_le_realsize n
  have hlt := realsize_lt hn
  have horder : pdpLoopRealsize n < 2 ^ 31 := by omega
  unfold pdpLoopNew
  dsimp only
  rw [pdpAlloc_eq_some.mpr (by omega)]
  refine ⟨_, rfl, htwo, horder, ?_, PacketLine.kept_new _, Int.le_refl 0, Int.le_refl 0,
    fun h => absurd rfl h, Int.le_refl 0, (by decide : (0 : Int) < 2 ^ 31),
    ⟨Int.le_refl 0, fun _ => rfl⟩, Int.le_refl 0, fun _ h => absurd rfl h⟩
  show ((List.replicate _ _).length : Int) = pdpLoopRealsize n
  rw [List.length_replicate]
  omega

theorem register (h : LoopInv x) (packet : Int) (pool : Pool) :
    ∃ x', x.register packet pool = some x' ∧ LoopInv x' := by
  by_cases hframes : x.recordingFrames = 0
  · exact ⟨x, if_pos hframes, h⟩
  · obtain ⟨head, hhead⟩ := Int.eq_ofNat_of_zero_le h.record_nonneg
    have hlt := h.record_lt hframes
    have hlength := h.length
    have horder := h.order_lt
    have hnonneg := h.frames_nonneg
    have hframesLt := h.frames_lt
    have hleft := h.left
    have hin : head < x.line.cells.length := by omega
    have hreplace := x.line.replace_eq hin packet pool
    rw [← hhead] at hreplace
    have hregister : x.register packet pool = some { x with
        line := ⟨x.line.cells.set head (copiedRo packet pool),
          (x.line.owned.markUnused x.line.cells[head]).receive (copiedRo packet pool)⟩
        recordHead := x.recordHead + 1
        recordingFrames := if x.recordHead + 1 = x.order then 0 else x.recordingFrames + -1
        recording := { x.recording with slots := x.recording.slots ++ [x.recordHead] } } := by
      rw [PdpLoop.register, if_neg hframes, hreplace, addInt_eq ⟨by omega, by omega⟩,
        addInt_eq ⟨by omega, by omega⟩]
      rfl
    have hlast : ((x.recording.slots ++ [x.recordHead]).length : Int) =
        x.recording.slots.length + 1 := by
      rw [List.length_append, List.length_singleton, Int.natCast_add, Int.natCast_one]
    have hstored : ((x.recording.slots ++ [x.recordHead]).length : Int) ≤ x.recording.wanted := by
      omega
    refine ⟨_, hregister, h.two_le, h.order_lt, ?_, h.kept.replace hin _, h.play_nonneg, ?_, ?_, ?_,
      ?_, ⟨hstored, fun hmoved => ?_⟩, ?_, fun hmoved hne => ?_⟩
    · show ((x.line.cells.set head _).length : Int) = x.order
      rw [List.length_set, hlength]
    · show 0 ≤ x.recordHead + 1
      omega
    · dsimp only
      split_ifs
      · exact fun hne => absurd rfl hne
      · intro _
        omega
    · dsimp only
      split_ifs <;> omega
    · dsimp only
      split_ifs <;> omega
    · show x.recording.slots ++ [x.recordHead] = _
      rw [List.length_append, List.length_singleton, List.range_succ, List.map_append,
        List.map_singleton, h.next hmoved hframes]
      exact congrArg (· ++ _) (h.right.consecutive hmoved)
    · dsimp only
      split_ifs <;> omega
    · show x.recordHead + 1 = x.recording.requested + _
      rw [hlast, h.next hmoved hframes, add_assoc]

theorem bang (h : LoopInv x) (hlt : x.playHead < 2 ^ 31 - 1) :
    ∃ x', x.bang = some x' ∧ LoopInv x' := by
  unfold PdpLoop.bang
  split
  · exact ⟨x, rfl, h⟩
  · have htwo := h.two_le
    have hlength := h.length
    have hplay := h.play_nonneg
    obtain ⟨k, hk⟩ := Int.eq_ofNat_of_zero_le (Int.tmod_nonneg x.order h.play_nonneg)
    have hmod := Int.tmod_lt_of_pos x.playHead (show 0 < x.order by omega)
    have hcell := PacketLine.fetch_eq (x := x.line) (i := k) (by omega)
    rw [hk, hcell, addInt_eq ⟨by omega, by omega⟩]
    refine ⟨_, rfl, h.two_le, h.order_lt, ?_, ?_, ?_, h.record_nonneg, h.record_lt,
      h.frames_nonneg, h.frames_lt, h.right, h.left, h.next⟩
    · dsimp only
      split_ifs
      · exact hlength
      · exact hlength
    · dsimp only
      split_ifs with hnone
      · exact h.kept
      · exact Holdings.Balanced.look h.kept (List.getElem_mem _) hnone
    · show 0 ≤ x.playHead + 1
      omega

theorem reset (h : LoopInv x) : LoopInv x.reset := by
  have htwo := h.two_le
  refine ⟨h.two_le, h.order_lt, ?_, h.kept.reset, Int.le_refl 0, Int.le_refl 0, fun _ => ?_,
    h.frames_nonneg, h.frames_lt, ⟨h.right.stored, fun hmoved => by cases hmoved⟩, h.left,
    fun hmoved => by cases hmoved⟩
  · show ((x.line.cells.map fun _ => -1).length : Int) = x.order
    rw [List.length_map, h.length]
  · show 0 < x.order
    omega

theorem request (h : LoopInv x) {start dur : Int} (h0 : 0 ≤ start) (hlt : start < x.order)
    (hdur : 0 ≤ dur) (hdurLt : dur < 2 ^ 31) : LoopInv (x.request start dur) where
  two_le := h.two_le
  order_lt := h.order_lt
  length := h.length
  kept := h.kept
  play_nonneg := h.play_nonneg
  record_nonneg := h0
  record_lt _ := hlt
  frames_nonneg := hdur
  frames_lt := hdurLt
  right := ⟨hdur, fun _ => rfl⟩
  left := by
    show (0 : Int) + dur ≤ dur
    omega
  next _ _ := (add_zero start).symm

theorem seek (h : LoopInv x) (i : Int) : LoopInv (x.seek i) :=
  have htwo := h.two_le
  ⟨h.two_le, h.order_lt, h.length, h.kept, (wrapSlot_mem i (by omega)).1, h.record_nonneg,
    h.record_lt, h.frames_nonneg, h.frames_lt, h.right, h.left, h.next⟩

theorem resize (h : LoopInv x) {n : Int} (hn : n < 2 ^ 29) (pool : Pool) :
    ∃ x', x.resize n pool = some x' ∧ LoopInv x' := by
  have htwo := h.two_le
  have hlength := h.length
  have hsize := two_le_realsize n
  have hlt := realsize_lt hn
  have horder : pdpLoopRealsize n < 2 ^ 31 := by omega
  have hpos : 0 < pdpLoopRealsize n := by omega
  unfold PdpLoop.resize
  dsimp only
  split
  · exact ⟨x, rfl, h⟩
  · rw [pdpAlloc_eq_some.mpr (by omega), Option.bind_eq_bind, Option.bind_some]
    split
    · next hlt =>
        obtain ⟨line, hextend, hkept, hcells⟩ := extend_spec hlength (by omega)
          (pdpLoopRealsize n - x.order).toNat x.order.toNat pool h.kept
        rw [hextend]
        refine ⟨_, rfl, hsize, horder, ?_, hkept, h.play_nonneg, h.record_nonneg,
          fun hne => ?_, h.frames_nonneg, h.frames_lt, h.right, h.left, h.next⟩
        · show (line.cells.length : Int) = pdpLoopRealsize n
          omega
        · exact Int.lt_trans (h.record_lt hne) hlt
    · next hne hle =>
        refine ⟨_, rfl, hsize, horder, ?_, ?_, Int.tmod_nonneg _ h.play_nonneg,
          Int.tmod_nonneg _ h.record_nonneg, fun _ => Int.tmod_lt_of_pos _ hpos, h.frames_nonneg,
          h.frames_lt, ⟨h.right.stored, fun hmoved => by cases hmoved⟩, h.left,
          fun hmoved => by cases hmoved⟩
        · show ((x.line.cells.take (pdpLoopRealsize n).toNat).length : Int) = pdpLoopRealsize n
          rw [List.length_take]
          omega
        · refine Holdings.Balanced.releaseAll (Holdings.Balanced.perm h.kept ?_)
          have happend := List.take_append_drop (pdpLoopRealsize n).toNat x.line.cells
          exact (List.Perm.of_eq happend.symm).trans List.perm_append_comm

theorem handle (h : LoopInv x) (hm : m.Converted) (hplayable : x.Playable m) :
    ∃ x', x.handle m = some x' ∧ LoopInv x' := by
  have htwo := h.two_le
  have horder := h.order_lt
  have hpos : 0 < x.order := by omega
  cases m with
  | registerRo packet pool => exact h.register packet pool
  | bang => exact h.bang hplayable
  | reset => exact ⟨_, rfl, h.reset⟩
  | record start dur =>
      obtain ⟨h0, hlt⟩ := wrapSlot_mem start hpos
      obtain ⟨-, -, hdur⟩ := hm
      refine ⟨_, rfl, h.request h0 hlt ?_ ?_⟩
      · split_ifs <;> omega
      · split_ifs <;> omega
  | store i =>
      obtain ⟨h0, hlt⟩ := wrapSlot_mem i hpos
      exact ⟨_, rfl, h.request h0 hlt (by decide) (by decide)⟩
  | seek i => exact ⟨_, rfl, h.seek i⟩
  | seekHot i =>
      have hlt : (x.seek i).playHead < x.order := (wrapSlot_mem i hpos).2
      exact (h.seek i).bang (by omega)
  | stop =>
      have hleft := h.right.stored
      exact ⟨_, rfl, h.two_le, h.order_lt, h.length, h.kept, h.play_nonneg, h.record_nonneg,
        fun hne => absurd rfl hne, Int.le_refl 0, (by decide : (0 : Int) < 2 ^ 31), h.right,
        (add_zero (x.recording.slots.length : Int)).symm ▸ hleft, fun _ hne => absurd rfl hne⟩
  | loop on =>
      exact ⟨_, rfl, h.two_le, h.order_lt, h.length, h.kept, h.play_nonneg, h.record_nonneg,
        h.record_lt, h.frames_nonneg, h.frames_lt, h.right, h.left, h.next⟩
  | size n pool => exact h.resize hplayable pool

theorem run {l : List LoopMessage} (h : LoopInv x) (hl : ∀ m ∈ l, m.Converted)
    (hplayable : x.AllPlayable l) : ∃ x', x.run l = some x' ∧ LoopInv x' := by
  induction l generalizing x with
  | nil => exact ⟨x, rfl, h⟩
  | cons m l ih =>
      obtain ⟨x₁, hhandle, h₁⟩ := h.handle (hl m List.mem_cons_self) hplayable.1
      obtain ⟨x', hrun, h'⟩ :=
        ih h₁ (fun m hm => hl m (List.mem_cons_of_mem _ hm)) (hplayable.2 x₁ hhandle)
      exact ⟨x', by rw [PdpLoop.run, hhandle, Option.bind_some, hrun], h'⟩

theorem free (h : LoopInv x) : x.free.refs = [] ∧ x.free.stray = false := by
  have hcells : x.line.owned.Balanced (x.line.cells ++ []) := by
    rw [List.append_nil]
    exact h.kept
  exact ⟨hcells.releaseAll.refs_eq_nil, hcells.releaseAll.stray⟩

end LoopInv

end Loop

/-- Whatever the messages are, as long as the play head can be advanced and the arrays can be made:
every access is to a slot of the array, every packet in it is owned once, and a recording is no
longer than it should be, in one piece unless the head has been moved. -/
theorem pdpLoop_kept {n : Int} {l : List LoopMessage} (hn : n < 2 ^ 29)
    (hl : ∀ m ∈ l, m.Converted) (hplayable : ∀ x, pdpLoopNew n = some x → x.AllPlayable l) :
    ∃ x, (pdpLoopNew n).bind (·.run l) = some x ∧ x.line.Kept ∧
      (x.free.refs = [] ∧ x.free.stray = false) ∧ x.recording.Right := by
  obtain ⟨x, hnew, h⟩ := LoopInv.new hn
  obtain ⟨x', hrun, h'⟩ := h.run hl (hplayable x hnew)
  exact ⟨x', by rw [hnew, Option.bind_some, hrun], h'.kept, h'.free, h'.right⟩

/-- A recording of two frames from slot 1 on; in the middle comes a message. -/
def recordTwo (m : LoopMessage) : List LoopMessage :=
  [.record 1 2, .registerRo 0 packetZero, m, .registerRo 0 packetZero, .bang]

theorem pdpLoop_kept_recordTwo :
    ∃ x, (pdpLoopNew 4).bind (·.run (recordTwo .stop)) = some x ∧ x.line.Kept ∧
      (x.free.refs = [] ∧ x.free.stray = false) ∧ x.recording.Right :=
  pdpLoop_kept (by decide)
    (fun m hm => by
      simp only [recordTwo, List.mem_cons, List.not_mem_nil, or_false] at hm
      rcases hm with rfl | rfl | rfl | rfl | rfl
      · exact ⟨by decide, by decide⟩
      all_goals exact trivial)
    fun x hnew => by
      cases hnew
      refine ⟨trivial, fun _ h₁ => ?_⟩
      cases h₁
      refine ⟨trivial, fun _ h₂ => ?_⟩
      cases h₂
      refine ⟨trivial, fun _ h₃ => ?_⟩
      cases h₃
      refine ⟨trivial, fun _ h₄ => ?_⟩
      cases h₄
      exact ⟨(by decide : (0 : Int) < 2 ^ 31 - 1), fun _ _ => trivial⟩

section Overflow

variable {x x' : PdpLoop}

theorem bang_playHead (hloop : x.loop = true) (hbang : x.bang = some x') :
    x'.loop = true ∧ x'.playHead = x.playHead + 1 := by
  rw [PdpLoop.bang, hloop, Bool.not_true, Bool.false_and, if_neg Bool.false_ne_true] at hbang
  obtain ⟨packet, -, hrest⟩ := Option.bind_eq_some_iff.mp hbang
  obtain ⟨head, hhead, hx'⟩ := Option.bind_eq_some_iff.mp hrest
  obtain ⟨-, hsum⟩ := Option.ite_none_right_eq_some.mp hhead
  cases hsum
  cases hx'
  exact ⟨rfl, rfl⟩

theorem bang_eq_none (hloop : x.loop = true) (hhead : x.playHead = 2 ^ 31 - 1) :
    x.bang = none := by
  have hsum : addInt x.playHead 1 = none := by
    rw [hhead]
    rfl
  rw [PdpLoop.bang, hloop, Bool.not_true, Bool.false_and, if_neg Bool.false_ne_true, hsum]
  cases x.line.fetch (x.playHead.tmod x.order) <;> rfl

theorem bangs_none (h : LoopInv x) (hloop : x.loop = true) (n : Nat)
    (hn : x.playHead + n = 2 ^ 31 - 1) : x.run (List.replicate (n + 1) .bang) = none := by
  induction n generalizing x with
  | zero =>
      have hnone : x.handle .bang = none := bang_eq_none hloop (by omega)
      rw [List.replicate_succ, PdpLoop.run, hnone, Option.bind_none]
  | succ n ih =>
      obtain ⟨x', hbang, h'⟩ := h.bang (by omega)
      obtain ⟨hloop', hhead⟩ := bang_playHead hloop hbang
      have hhandle : x.handle .bang = some x' := hbang
      rw [List.replicate_succ, PdpLoop.run, hhandle, Option.bind_some]
      exact ih h' hloop' (by omega)

/-- An array of `2 ^ 29` packets is not made. -/
theorem resize_eq_none (h : x.order < 2 ^ 29) (pool : Pool) : x.resize (2 ^ 29) pool = none := by
  have horder : pdpLoopRealsize (2 ^ 29) = 2 ^ 29 := rfl
  unfold PdpLoop.resize
  dsimp only
  rw [horder, if_neg (by omega), pdpAlloc_eq_none.mpr (by decide)]
  rfl

end Overflow

/-- After a reset, and after a size that leaves out the head, a recording goes on at the beginning
of the array.  Some number of bangs is too many, and so is a size of `2 ^ 29`. -/
theorem not_pdpLoop_kept :
    (∀ m ∈ [LoopMessage.reset, .size 2 packetZero],
      ∃ x, (pdpLoopNew 4).bind (·.run (recordTwo m)) = some x ∧ x.recording.requested = 1 ∧
        x.recording.slots = [1, 0]) ∧
    (∃ n, (pdpLoopNew 2).bind (·.run (List.replicate n .bang)) = none) ∧
    (pdpLoopNew 2).bind (·.run [.size (2 ^ 29) packetZero]) = none := by
  obtain ⟨x, hnew, h⟩ := LoopInv.new (n := 2) (by decide)
  refine ⟨fun m hm => ?_, ⟨2 ^ 31 - 1 + 1, ?_⟩, ?_⟩
  · rcases List.mem_cons.mp hm with rfl | hm
    · exact ⟨_, rfl, rfl, rfl⟩
    · obtain rfl := List.mem_singleton.mp hm
      exact ⟨_, rfl, rfl, rfl⟩
  · rw [hnew, Option.bind_some]
    cases hnew
    exact bangs_none h rfl (2 ^ 31 - 1) (by decide)
  · have horder : x.order = 2 := by
      cases hnew
      rfl
    have hnone : x.handle (.size (2 ^ 29) packetZero) = none :=
      resize_eq_none (by omega) packetZero
    rw [hnew, Option.bind_some, PdpLoop.run, hnone, Option.bind_none]

end PureDataPacket
