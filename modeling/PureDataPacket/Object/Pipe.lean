/-
# `PureDataPacket.Object.Pipe` — `pdp_rawout` and `pdp_rawin` at the ends of a pipe

The writer writes the data of its packets into a pipe in pieces of any size, and the reader fills
packets of its own from it, also in pieces of any size.  Nothing in the pipe says where a packet
ends.  As long as the packets have the size that the reader makes its own with, what the reader
delivers are the packets that the writer was given, in their order, without one left out.

| | |
| :-- | :-- |
| `Legal` | what the callers and the system may do |
| `Feeds` | what the writer has been given, and what it has written |
| `Feeds.step` | what one step of `pdp_rawout` preserves |
| `InLoop` | `read_packet` in its loop |
| `Flow` | what holds in every state of a run |
-/
import Mathlib.Data.List.Basic
import PureDataPacket.Object.Rawin
import PureDataPacket.Object.Rawout

namespace PureDataPacket

/-- A pipe that is open, and what is at its ends. -/
structure RawPipe where
  out : Rawout
  /-- all bytes that were written -/
  stream : List UInt8
  /-- how many of them the complete packets of the reader have taken -/
  base : Nat
  /-- the call of `read_packet` -/
  reading : ReadPacket
  /-- the data of the packets that went to `x_queue` of the reader -/
  delivered : List (List (Option UInt8))

inductive PipeAct where
  | out (a : RawoutAct)
  /-- a round of `read_packet`; `next` is the packet that is created after a complete one -/
  | read (r : ReadRound) (next : Option DataArea)

namespace RawPipe

/-- The pipe has just been opened. -/
def start (first : Option DataArea) : RawPipe where
  out := { Rawout.new.openPipe with writer := .polling }
  stream := []
  base := 0
  reading := .start first
  delivered := []

/-- What a step of `pdp_rawout` writes. -/
def written (contents : Int → List UInt8) (x : Rawout) : RawoutAct → List UInt8
  | .round (.ready (.bytes n)) =>
      match x.writer with
      | .sending p left =>
          if x.giveup then [] else ((contents p).drop ((contents p).length - left)).take n
      | _ => []
  | _ => []

/-- The bytes of a packet that was filled from the pipe. -/
def bytesOf (s : RawPipe) (packet : Row Nat) : List (Option UInt8) :=
  packet.map fun c => c.bind fun i => s.stream[s.base + i]?

def step (contents : Int → List UInt8) (s : RawPipe) : PipeAct → Option RawPipe
  | .out a => do
      let out ← s.out.step a
      return { s with out, stream := s.stream ++ written contents s.out a }
  | .read r next => do
      let x ← s.reading.round r
      if s.reading.status = .reading ∧ x.status = .full then
        -- `pdp_list_add_back`, and the next call of `read_packet`
        return { s with
          base := s.base + x.taken
          reading := .start next
          delivered := s.delivered ++ [s.bytesOf x.packet] }
      else return { s with reading := x }

/-- What the callers and the system may do: packets have `size` bytes, `write` takes some of what it
is given, `read` gives some of what is in the pipe and does not fail, and the pipe is not opened
again. -/
def Legal (contents : Int → List UInt8) (size : Nat) (s : RawPipe) : PipeAct → Prop
  | .out (.register p) => (contents p).length = size
  | .out (.pop n) => ∀ p ∈ s.out.queue.head?, n = (contents p).length
  | .out (.round (.ready (.bytes n))) => ∀ p left, s.out.writer = .sending p left → n ≤ left
  | .out .joined => False
  | .out _ => True
  | .read r next => (∀ a ∈ next, a.size = size) ∧ r.select ≠ .ready .failed ∧
      ∀ n, r.select = .ready (.bytes n) → s.base + s.reading.taken + n ≤ s.stream.length

/-- The states of a run. -/
inductive Run (contents : Int → List UInt8) (size : Nat) : RawPipe → Prop
  | start {first : Option DataArea} (h : ∀ a ∈ first, a.size = size) :
      Run contents size (.start first)
  | step {s s' : RawPipe} {a : PipeAct} (h : Run contents size s) (ha : Legal contents size s a)
      (hs : s.step contents a = some s') : Run contents size s'

/-! ## The writer -/

section Writer

variable {contents : Int → List UInt8} {size : Nat} {x x' : Rawout} {stream : List UInt8}
  {popped : List Int}

/-- The packets `popped` have been taken out of the queue, and this has been written of them. -/
def SentSoFar (contents : Int → List UInt8) (popped : List Int) (stream : List UInt8) :
    WriterAt → Prop
  | .sending p left => ∃ before, popped = before ++ [p] ∧ left ≤ (contents p).length ∧
      stream = before.flatMap contents ++ (contents p).take ((contents p).length - left)
  | .finished => stream <+: popped.flatMap contents
  | _ => stream = popped.flatMap contents

theorem SentSoFar.isPrefix {w : WriterAt} (h : SentSoFar contents popped stream w) :
    stream <+: popped.flatMap contents := by
  cases w with
  | sending p left =>
      obtain ⟨before, rfl, -, rfl⟩ := h
      rw [List.flatMap_append, List.flatMap_singleton]
      exact List.prefix_append_right_inj _ |>.mpr (List.take_prefix _ _)
  | finished => exact h
  | none => exact h ▸ List.prefix_refl _
  | opening => exact h ▸ List.prefix_refl _
  | polling => exact h ▸ List.prefix_refl _
  | popping => exact h ▸ List.prefix_refl _

/-- What the writer has been given, and what it has written. -/
structure Feeds (contents : Int → List UInt8) (size : Nat) (x : Rawout) (stream : List UInt8) :
    Prop where
  active : x.active = true
  sized : ∀ p ∈ x.received, (contents p).length = size
  sent : ∃ popped, x.received = popped ++ x.queue ∧ SentSoFar contents popped stream x.writer

theorem Feeds.same (h : Feeds contents size x stream) (hactive : x'.active = x.active)
    (hreceived : x'.received = x.received) (hqueue : x'.queue = x.queue)
    (hwriter : x'.writer = x.writer ∨ x'.writer = .finished) : Feeds contents size x' stream where
  active := hactive.trans h.active
  sized := hreceived ▸ h.sized
  sent := by
    obtain ⟨popped, hpopped, hsent⟩ := h.sent
    refine ⟨popped, by rw [hreceived, hqueue, hpopped], ?_⟩
    rcases hwriter with hw | hw
    · rwa [hw]
    · rw [hw]
      exact hsent.isPrefix

/-- The end of the inner loop, or a round more. -/
theorem feeds_sendLoop (hactive : x.active = true)
    (hsized : ∀ p ∈ x.received, (contents p).length = size) {before : List Int} {p : Int}
    {left : Nat} (hreceived : x.received = before ++ [p] ++ x.queue)
    (hleft : left ≤ (contents p).length) (hstream : stream = before.flatMap contents ++
      (contents p).take ((contents p).length - left)) :
    Feeds contents size (x.sendLoop p left) stream := by
  unfold Rawout.sendLoop
  split
  · next hzero =>
      refine ⟨hactive, hsized, before ++ [p], hreceived, ?_⟩
      show stream = _
      rw [hstream, hzero, Nat.sub_zero, List.take_length, List.flatMap_append,
        List.flatMap_singleton]
  · exact ⟨hactive, hsized, before ++ [p], hreceived, before, rfl, hleft, hstream⟩

theorem Feeds.register (h : Feeds contents size x stream) {p : Int}
    (hp : (contents p).length = size) : Feeds contents size (x.register p) stream := by
  unfold Rawout.register
  split
  · split
    · obtain ⟨popped, hpopped, hsent⟩ := h.sent
      refine ⟨h.active, fun q hq => ?_, popped, ?_, hsent⟩
      · rcases List.mem_append.mp hq with hq | hq
        · exact h.sized q hq
        · exact List.mem_singleton.mp hq ▸ hp
      · show x.received ++ [p] = popped ++ (x.queue ++ [p])
        rw [hpopped, List.append_assoc]
    · exact h
  · exact h

theorem Feeds.pop {s : RawPipe} {n : Nat} (h : Feeds contents size s.out s.stream)
    (ha : Legal contents size s (.out (.pop n))) (hs : s.out.step (.pop n) = some x') :
    Feeds contents size x' s.stream := by
  obtain ⟨packet, rest, hpopping, hqueue, rfl⟩ := Rawout.step_pop hs
  obtain ⟨popped, hpopped, hsent⟩ := h.sent
  rw [hpopping] at hsent
  have hn : n = (contents packet).length := ha packet (by rw [hqueue]; rfl)
  have hreceived : s.out.received = popped ++ [packet] ++ rest := by
    rw [hpopped, hqueue, List.append_assoc]
    rfl
  have hstream : s.stream = popped.flatMap contents ++
      (contents packet).take ((contents packet).length - n) := by
    rw [hn, Nat.sub_self, List.take_zero, List.append_nil]
    exact hsent
  exact feeds_sendLoop (x := { s.out with queue := rest }) h.active h.sized hreceived
    (Nat.le_of_eq hn) hstream

theorem Feeds.round {s : RawPipe} {answer : WriteSelect} (h : Feeds contents size s.out s.stream)
    (ha : Legal contents size s (.out (.round answer)))
    (hs : s.out.step (.round answer) = some x') :
    Feeds contents size x' (s.stream ++ written contents s.out (.round answer)) := by
  have hquiet : s.stream ++ [] = s.stream := List.append_nil _
  obtain ⟨packet, left, hsending, rfl⟩ := Rawout.step_round hs
  by_cases hgiveup : s.out.giveup = true
  · have hnothing : written contents s.out (.round answer) = [] := by
      unfold written
      split
      · rw [hsending]
        exact if_pos hgiveup
      · rfl
    unfold Rawout.round
    rw [hnothing, hquiet, if_pos hgiveup]
    exact h.same rfl rfl rfl (Or.inr rfl)
  · unfold Rawout.round
    rw [if_neg hgiveup]
    cases answer with
    | failed => exact hquiet.symm ▸ h.same rfl rfl rfl (Or.inr rfl)
    | timeout => exact hquiet.symm ▸ h
    | ready write =>
        cases write with
        | again => exact hquiet.symm ▸ h
        | failed => exact hquiet.symm ▸ h.same rfl rfl rfl (Or.inr rfl)
        | bytes n =>
            have hn : n ≤ left := ha packet left hsending
            obtain ⟨popped, hpopped, hsent⟩ := h.sent
            rw [hsending] at hsent
            obtain ⟨before, rfl, hleft, hstream⟩ := hsent
            have hwritten : written contents s.out (.round (.ready (.bytes n))) =
                ((contents packet).drop ((contents packet).length - left)).take n := by
              unfold written
              rw [hsending]
              exact if_neg hgiveup
            refine feeds_sendLoop h.active h.sized hpopped (by omega) ?_
            have hsplit : (contents packet).length - (left - n) =
                (contents packet).length - left + n := by omega
            rw [hwritten, hstream, hsplit, List.take_add, List.append_assoc]

theorem Feeds.step {s : RawPipe} {a : RawoutAct} (h : Feeds contents size s.out s.stream)
    (ha : Legal contents size s (.out a)) (hs : s.out.step a = some x') :
    Feeds contents size x' (s.stream ++ written contents s.out a) := by
  have hquiet : s.stream ++ [] = s.stream := List.append_nil _
  have hclose : Feeds contents size s.out.close s.stream := by
    unfold Rawout.close
    rw [if_pos h.active]
    exact h.same rfl rfl rfl (Or.inl rfl)
  cases a with
  | register p =>
      obtain ⟨-, rfl⟩ := Rawout.of_guard hs
      exact hquiet.symm ▸ h.register ha
  | checkDone =>
      obtain ⟨-, rfl⟩ := Rawout.of_guard hs
      refine hquiet.symm ▸ ?_
      split
      · exact hclose
      · exact h
  | queuesize n =>
      obtain ⟨-, rfl⟩ := Rawout.of_guard hs
      exact hquiet.symm ▸ h.same rfl rfl rfl (Or.inl rfl)
  | openPipe =>
      obtain ⟨-, rfl⟩ := Rawout.of_guard hs
      refine hquiet.symm ▸ ?_
      unfold Rawout.openPipe
      rw [if_pos h.active]
      exact h
  | close =>
      obtain ⟨-, rfl⟩ := Rawout.of_guard hs
      exact hquiet.symm ▸ hclose
  | free =>
      obtain ⟨-, rfl⟩ := Rawout.of_guard hs
      refine hquiet.symm ▸ ?_
      unfold Rawout.free
      rw [if_pos h.active]
      exact h.same rfl rfl rfl (Or.inl rfl)
  | joined => exact absurd ha id
  | opened ok =>
      obtain ⟨hopening, rfl⟩ := Rawout.of_guard hs
      refine hquiet.symm ▸ ?_
      split
      · obtain ⟨popped, hpopped, hsent⟩ := h.sent
        rw [hopening] at hsent
        exact ⟨h.active, h.sized, popped, hpopped, hsent⟩
      · exact h.same rfl rfl rfl (Or.inr rfl)
  | poll =>
      obtain ⟨hpolling, rfl⟩ := Rawout.of_guard hs
      refine hquiet.symm ▸ ?_
      unfold Rawout.poll
      split
      · split
        · exact h.same rfl rfl rfl (Or.inr rfl)
        · exact h
      · obtain ⟨popped, hpopped, hsent⟩ := h.sent
        rw [hpolling] at hsent
        exact ⟨h.active, h.sized, popped, hpopped, hsent⟩
  | pop n => exact hquiet.symm ▸ h.pop ha hs
  | round answer => exact h.round ha hs

end Writer

/-! ## The reader -/

section Reader

variable {size : Nat} {x : ReadPacket} {r : ReadRound}

/-- `read_packet` in its loop. -/
structure InLoop (size : Nat) (x : ReadPacket) : Prop where
  status : x.status = .reading
  packet : x.packet = filledTo size x.taken
  data : x.data = x.taken
  left : x.taken + x.left = size
  pos : 0 < x.left

/-- It is in its loop, or has returned -1 and is not called again. -/
def Ready (size : Nat) (x : ReadPacket) : Prop := x.status = .closed ∨ InLoop size x

theorem ready_start (hpos : 0 < size) {next : Option DataArea} (h : ∀ a ∈ next, a.size = size) :
    Ready size (.start next) ∧ (ReadPacket.start next).taken = 0 := by
  cases next with
  | none => exact ⟨Or.inl rfl, rfl⟩
  | some a =>
      have hsize : a.size = size := h a rfl
      have hstart : ReadPacket.start (some a) =
          ⟨true, List.replicate a.size none, 0, a.size, 0, false, .reading⟩ :=
        if_neg (show ¬a.size = 0 by omega)
      rw [hstart]
      refine ⟨Or.inr ⟨rfl, ?_, rfl, ?_, ?_⟩, rfl⟩
      · rw [hsize]
        exact (Row.replicate_none _).trans <| Row.ofContents_congr fun i _ =>
          (if_neg (Nat.not_lt_zero i)).symm
      · exact (Nat.zero_add _).trans hsize
      · show 0 < a.size
        omega

/-- What a round does: it returns -1, waits, or takes some bytes. -/
theorem InLoop.round (h : InLoop size x) (hr : r.select ≠ .ready .failed) :
    ∃ x', x.round r = some x' ∧ (x'.status = .closed ∨ x' = x ∨
      ∃ n b, r.select = .ready (.bytes n) ∧ 0 < b ∧ b ≤ n ∧ b ≤ x.left ∧ x'.taken = x.taken + b ∧
        x'.packet = filledTo size (x.taken + b) ∧
        (x'.status = .full ∧ b = x.left ∨ InLoop size x')) := by
  unfold ReadPacket.round
  rw [if_neg (not_not_intro h.status)]
  split
  · exact ⟨_, rfl, Or.inl rfl⟩
  · cases hselect : r.select with
    | failed => exact ⟨_, rfl, Or.inl rfl⟩
    | timeout => exact ⟨_, rfl, Or.inr (Or.inl rfl)⟩
    | ready read =>
        cases read with
        | failed => exact absurd hselect hr
        | bytes n =>
            dsimp only
            have hle := Nat.min_le_right n x.left
            have hleft := h.left
            by_cases hzero : min n x.left = 0
            · rw [if_pos hzero]
              exact ⟨_, rfl, Or.inl rfl⟩
            · rw [if_neg hzero, h.packet, h.data, store_filledTo (by omega)]
              refine ⟨_, rfl, Or.inr (Or.inr ⟨n, min n x.left, rfl, Nat.pos_of_ne_zero hzero,
                Nat.min_le_left _ _, hle, ?_, ?_, ?_⟩)⟩
              · unfold ReadPacket.loop
                split <;> rfl
              · unfold ReadPacket.loop
                split <;> rfl
              · unfold ReadPacket.loop
                split
                · next hnone =>
                    have hnone : x.left - min n x.left = 0 := hnone
                    exact Or.inl ⟨rfl, by omega⟩
                · next hmore =>
                    have hmore : ¬x.left - min n x.left = 0 := hmore
                    refine Or.inr ⟨h.status, rfl, (Int.natCast_add _ _).symm, ?_,
                      Nat.pos_of_ne_zero hmore⟩
                    show x.taken + min n x.left + (x.left - min n x.left) = size
                    omega

end Reader

/-! ## Both ends -/

section Flow

variable {contents : Int → List UInt8} {size : Nat} {s s' : RawPipe} {a : PipeAct}

/-- What holds in every state of a run. -/
structure Flow (contents : Int → List UInt8) (size : Nat) (s : RawPipe) : Prop where
  feeds : Feeds contents size s.out s.stream
  ready : Ready size s.reading
  base : s.base = size * s.delivered.length
  within : s.base ≤ s.stream.length
  taken : s.reading.status = .reading → s.base + s.reading.taken ≤ s.stream.length
  sizes : ∀ d ∈ s.delivered, d.length = size
  flat : s.delivered.flatten = (s.stream.take s.base).map some

theorem flow_start (hpos : 0 < size) {first : Option DataArea} (h : ∀ a ∈ first, a.size = size) :
    Flow contents size (.start first) where
  feeds := ⟨rfl, fun _ hp => absurd hp List.not_mem_nil, [], rfl, rfl⟩
  ready := (ready_start hpos h).1
  base := (Nat.mul_zero _).symm
  within := Nat.le_refl _
  taken _ := by
    show 0 + (ReadPacket.start first).taken ≤ 0
    exact Nat.le_of_eq ((Nat.zero_add _).trans (ready_start hpos h).2)
  sizes _ hd := absurd hd List.not_mem_nil
  flat := rfl

/-- A full packet has the next bytes of the stream. -/
theorem bytesOf_filledTo (h : s.base + size ≤ s.stream.length) :
    s.bytesOf (filledTo size size) = ((s.stream.drop s.base).take size).map some := by
  refine List.ext_getElem? fun i => ?_
  unfold bytesOf filledTo Row.ofContents
  rw [List.map_map, List.getElem?_map, List.getElem?_map, List.getElem?_take]
  rcases Nat.lt_or_ge i size with hi | hi
  · rw [List.getElem?_range hi, if_pos hi, List.getElem?_drop]
    have hlt : s.base + i < s.stream.length := by omega
    rw [List.getElem?_eq_getElem hlt]
    show some (Option.bind (if i < size then some i else none) _) = _
    rw [if_pos hi, Option.bind_some, List.getElem?_eq_getElem hlt]
    rfl
  · rw [List.getElem?_eq_none (by rw [List.length_range]; exact hi), if_neg (by omega)]
    rfl

theorem Flow.step (h : Flow contents size s) (hpos : 0 < size) (ha : Legal contents size s a)
    (hs : s.step contents a = some s') : Flow contents size s' := by
  cases a with
  | out a =>
      cases hout : s.out.step a with
      | none =>
          simp only [RawPipe.step, hout] at hs
          cases hs
      | some x =>
          simp only [RawPipe.step, hout] at hs
          cases hs
          have hgrown : s.stream.length ≤ (s.stream ++ written contents s.out a).length := by
            rw [List.length_append]
            omega
          refine ⟨h.feeds.step ha hout, h.ready, h.base, Nat.le_trans h.within hgrown,
            fun hr => Nat.le_trans (h.taken hr) hgrown, h.sizes, ?_⟩
          show s.delivered.flatten = ((s.stream ++ _).take s.base).map some
          rw [List.take_append_of_le_length h.within, h.flat]
  | read r next =>
      obtain ⟨hnext, hfailed, havailable⟩ := ha
      rcases h.ready with hclosed | hloop
      · have hround : s.reading.round r = some s.reading := by
          unfold ReadPacket.round
          rw [if_pos (by rw [hclosed]; decide)]
        simp only [RawPipe.step, hround, hclosed] at hs
        cases hs
        exact h
      · obtain ⟨x, hround, hcases⟩ := hloop.round hfailed
        simp only [RawPipe.step, hround, Option.bind_eq_bind, Option.bind_some, Option.pure_def]
          at hs
        rcases hcases with hclosed | rfl | ⟨n, b, hselect, hb, hbn, hbl, htaken, hpacket, hrest⟩
        · rw [if_neg (fun hf => by rw [hclosed] at hf; cases hf.2)] at hs
          cases hs
          exact ⟨h.feeds, Or.inl hclosed, h.base, h.within, (fun hr => by
            rw [show x.status = .reading from hr] at hclosed; cases hclosed), h.sizes, h.flat⟩
        · rw [if_neg (fun hf => by rw [hloop.status] at hf; cases hf.2)] at hs
          cases hs
          exact h
        · have hroom := havailable n hselect
          rcases hrest with ⟨hfull, hall⟩ | hmore
          · -- The packet is complete.
            have hsize : s.reading.taken + b = size := by
              have := hloop.left
              omega
            have hend : s.base + size ≤ s.stream.length := by omega
            rw [if_pos ⟨hloop.status, hfull⟩, htaken, hpacket, hsize] at hs
            cases hs
            obtain ⟨hready, hnone⟩ := ready_start hpos hnext
            refine ⟨h.feeds, hready, ?_, hend, ?_, ?_, ?_⟩
            · rw [h.base, List.length_append, List.length_singleton, Nat.mul_add, Nat.mul_one]
            · intro _
              show s.base + size + (ReadPacket.start next).taken ≤ s.stream.length
              rw [hnone]
              exact hend
            · intro d hd
              rcases List.mem_append.mp hd with hd | hd
              · exact h.sizes d hd
              · rw [List.mem_singleton.mp hd]
                unfold bytesOf
                rw [List.length_map]
                exact Row.length_ofContents
            · show (s.delivered ++ [s.bytesOf (filledTo size size)]).flatten =
                (s.stream.take (s.base + size)).map some
              rw [List.flatten_append, List.flatten_singleton, h.flat, bytesOf_filledTo hend,
                List.take_add, List.map_append]
          · rw [if_neg (fun hf => by rw [hmore.status] at hf; cases hf.2)] at hs
            cases hs
            exact ⟨h.feeds, Or.inr hmore, h.base, h.within, (fun _ => by
              show s.base + x.taken ≤ s.stream.length
              omega), h.sizes, h.flat⟩

theorem Run.flow (hpos : 0 < size) (h : Run contents size s) : Flow contents size s := by
  induction h with
  | start hfirst => exact flow_start hpos hfirst
  | step _ ha hs ih => exact ih.step hpos ha hs

theorem take_flatMap {l : List Int} (hl : ∀ p ∈ l, (contents p).length = size) (m : Nat) :
    (l.flatMap contents).take (size * m) = (l.take m).flatMap contents := by
  induction l generalizing m with
  | nil => rw [List.flatMap_nil, List.take_nil, List.take_nil, List.flatMap_nil]
  | cons p l ih =>
      have hp : (contents p).length = size := hl p List.mem_cons_self
      cases m with
      | zero => rfl
      | succ m =>
          rw [List.flatMap_cons, List.take_succ_cons, List.flatMap_cons, Nat.mul_succ,
            Nat.add_comm, ← hp, List.take_length_add_append, hp,
            ih fun q hq => hl q (List.mem_cons_of_mem _ hq)]

theorem length_flatMap {l : List Int} (hl : ∀ p ∈ l, (contents p).length = size) :
    (l.flatMap contents).length = size * l.length := by
  induction l with
  | nil => rfl
  | cons p l ih =>
      rw [List.flatMap_cons, List.length_append, List.length_cons, hl p List.mem_cons_self,
        ih fun q hq => hl q (List.mem_cons_of_mem _ hq), Nat.mul_succ, Nat.add_comm]

theorem Flow.delivered (h : Flow contents size s) (hpos : 0 < size) :
    s.delivered.length ≤ s.out.received.length ∧ s.delivered =
      (s.out.received.take s.delivered.length).map fun p => (contents p).map some := by
  obtain ⟨popped, hreceived, hsent⟩ := h.feeds.sent
  have hsized : ∀ p ∈ popped, (contents p).length = size := fun p hp =>
    h.feeds.sized p (hreceived ▸ List.mem_append_left _ hp)
  obtain ⟨rest, hrest⟩ := hsent.isPrefix
  have hlength := length_flatMap hsized
  have hwithin := h.within
  rw [h.base] at hwithin
  have hmany : s.delivered.length ≤ popped.length := by
    refine Nat.le_of_mul_le_mul_left ?_ hpos
    rw [← hlength, ← hrest, List.length_append]
    omega
  have htake : s.out.received.take s.delivered.length = popped.take s.delivered.length := by
    rw [hreceived, List.take_append_of_le_length hmany]
  refine ⟨by rw [hreceived, List.length_append]; omega, ?_⟩
  rw [htake]
  refine List.eq_iff_flatten_eq.mpr ⟨?_, ?_⟩
  · have hstream : s.stream.take (size * s.delivered.length) =
        (popped.take s.delivered.length).flatMap contents := by
      rw [← take_flatMap hsized, ← hrest, List.take_append_of_le_length hwithin]
    rw [h.flat, h.base, hstream, List.map_flatMap]
    rfl
  · have hleft : s.delivered.map List.length = List.replicate s.delivered.length size :=
      List.eq_replicate_iff.mpr ⟨List.length_map .., fun n hn => by
        obtain ⟨d, hd, rfl⟩ := List.mem_map.mp hn
        exact h.sizes d hd⟩
    have hright : ((popped.take s.delivered.length).map fun p => (contents p).map some).map
        List.length = List.replicate s.delivered.length size := by
      refine List.eq_replicate_iff.mpr ⟨?_, fun n hn => ?_⟩
      · rw [List.length_map, List.length_map, List.length_take, Nat.min_eq_left hmany]
      · obtain ⟨d, hd, rfl⟩ := List.mem_map.mp hn
        obtain ⟨p, hp, rfl⟩ := List.mem_map.mp hd
        rw [List.length_map, hsized p (List.mem_of_mem_take hp)]
    rw [hleft, hright]

end Flow

/-- In every run, with any pieces written and read and whatever happens at the ends, the packets
that `pdp_rawin` has delivered are the first ones that `pdp_rawout` was given, with all of their
data. -/
theorem delivers_in_order {contents : Int → List UInt8} {size : Nat} {s : RawPipe}
    (hpos : 0 < size) (h : Run contents size s) :
    s.delivered.length ≤ s.out.received.length ∧ s.delivered =
      (s.out.received.take s.delivered.length).map fun p => (contents p).map some :=
  (h.flow hpos).delivered hpos

/-- One packet, written and read byte by byte. -/
theorem delivers_in_order_two : ∃ s, Run (fun _ => [1, 2]) 2 s ∧ s.delivered =
    (s.out.received.take s.delivered.length).map fun _ => [some 1, some 2] := by
  have h₀ : Run (fun _ => [1, 2]) 2 (.start (some twoByteArea)) := .start fun a ha => by
    cases ha
    rfl
  have h₁ := h₀.step (a := .out (.register 7)) rfl rfl
  have h₂ := h₁.step (a := .out .poll) trivial rfl
  have h₃ := h₂.step (a := .out (.pop 2)) (fun _ _ => rfl) rfl
  have h₄ := h₃.step (a := .out (.round (.ready (.bytes 1))))
    (fun _ _ he => by cases he; decide) rfl
  have h₅ := h₄.step (a := .read ⟨false, .ready (.bytes 1)⟩ none)
    ⟨(fun _ ha => by cases ha), (fun he => by cases he), fun _ he => by cases he; decide⟩ rfl
  have h₆ := h₅.step (a := .out (.round (.ready (.bytes 1))))
    (fun _ _ he => by cases he; decide) rfl
  have h₇ := h₆.step (a := .read ⟨false, .ready (.bytes 1)⟩ none)
    ⟨(fun _ ha => by cases ha), (fun he => by cases he), fun _ he => by cases he; decide⟩ rfl
  exact ⟨_, h₇, (delivers_in_order (by decide) h₇).2⟩

end RawPipe

end PureDataPacket
