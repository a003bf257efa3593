/-
# `PureDataPacket.Object.Qt` — the audio of a film, by way of two chunks

`pdp_qt_bangaudio` decodes one chunk of audio for each frame, and `pdp_qt_perform` plays it in
blocks of another size.  There are two chunks, one that is played and one that is filled, and a flag
for each; whichever of the two methods comes late finds its chunk unused, or used.

| | |
| :-- | :-- |
| `Conserved` | what has been played and what is left to play are the decoded samples, in order |
| `FillsClean` | a chunk that is filled in part has nothing left over from an earlier time |
| `qt_right` | in every run with such fills no sample is lost or played twice |

A sample is where it comes from: what is said about it holds for any values the decoder gives.
-/
import Mathlib.Data.List.Basic
import Mathlib.Logic.Function.Basic
import PureDataPacket.Lib.Alloc

namespace PureDataPacket

namespace Qt

/-- Zero, or the sample of this number that was decoded for a channel. -/
inductive Sample where
  | zero
  | decoded (channel : Bool) (number : Nat)
deriving DecidableEq

/-- Samples of a chunk that are read or written, or an entry of `x_qt_audiochans` that is. -/
inductive Access where
  | chunk (channel current : Bool) (start count : Nat)
  | audiochans (index : Nat)

end Qt

open Qt in
/-- The audio of a `t_pdp_qt`, the channel and the number of a chunk being its indices; how many
samples of each channel have been decoded; and what was put out and accessed. -/
structure Qt where
  xChunkSize : Nat
  xAudioChannels : Nat
  xChunk : Bool → Bool → List Sample
  xChunkUsed : Bool → Bool
  xChunkCurrent : Bool
  xChunkPos : Nat
  decoded : Nat
  out : Bool → List Sample
  accesses : List Access

namespace Qt

/-- `pdp_qt_open`, where both arrays are made. -/
def opened (chunkSize audioChannels : Nat) : Qt where
  xChunkSize := chunkSize
  xAudioChannels := audioChannels
  xChunk := fun _ _ => List.replicate chunkSize .zero
  xChunkUsed := fun _ => false
  xChunkCurrent := false
  xChunkPos := 0
  decoded := 0
  out := fun _ => []
  accesses := []

/-- `pdp_qt_open`: the four buffers of `float`s, and the pointers of the channels. -/
def new (chunkSize audioChannels : Nat) : Option Qt := do
  pdpAlloc (16 * chunkSize)
  pdpAlloc (8 * audioChannels)
  return opened chunkSize audioChannels

/-! ## Filling -/

/-- The active chunk is cleared and marked used. -/
def clear (x : Qt) : Qt :=
  { x with
    xChunk := fun channel => Function.update (x.xChunk channel) x.xChunkCurrent
      (List.replicate x.xChunkSize .zero)
    xChunkUsed := Function.update x.xChunkUsed x.xChunkCurrent true
    accesses := x.accesses ++ [.chunk false x.xChunkCurrent 0 x.xChunkSize,
      .chunk true x.xChunkCurrent 0 x.xChunkSize] }

/-- `lqt_decode_audio`, for a chunk of a channel: so many samples at its start. -/
def decode (x : Qt) (channel : Bool) (readamount : Nat) : List Sample :=
  (List.range' x.decoded readamount).map (Sample.decoded channel) ++
    (x.xChunk channel (!x.xChunkCurrent)).drop readamount

/-- The inactive chunk is filled, for one channel or two, and marked used.  Both times two pointers
are stored; further channels have none. -/
def fill (readamount : Nat) (x : Qt) : Qt :=
  let other := !x.xChunkCurrent
  let pointers : List Access := [.audiochans 0, .audiochans 1]
  let x := { x with
    xChunkUsed := Function.update x.xChunkUsed other true
    decoded := x.decoded + readamount
    xChunk := fun channel => if x.xAudioChannels = 1 ∧ channel = true then x.xChunk channel
      else Function.update (x.xChunk channel) other (x.decode channel readamount) }
  match x.xAudioChannels with
  | 1 => { x with accesses := x.accesses ++ pointers ++ [.chunk false other 0 readamount] }
  | _ => { x with accesses := x.accesses ++ pointers ++
      [.chunk false other 0 readamount, .chunk true other 0 readamount] }

/-- `if (!x->x_chunk_used[x->x_chunk_current])`. -/
def activate (x : Qt) : Qt := if x.xChunkUsed x.xChunkCurrent then x else x.clear

/-- `pdp_qt_bangaudio`, when the file has so much audio after its position.  A position behind the
end of the file leaves less than nothing. -/
def bangaudio (remaining : Int) (x : Qt) : Qt :=
  let x := x.activate
  let readamount := min remaining x.xChunkSize
  if readamount = 0 then x
  else if x.xChunkUsed (!x.xChunkCurrent) then x
  else x.fill readamount.toNat

/-! ## Playing -/

/-- The channel that is put out as this one. -/
def source (x : Qt) (channel : Bool) : Bool := if x.xAudioChannels = 1 then false else channel

/-- From the chunk to the output. -/
def transfer (xferSamples : Nat) (x : Qt) : Qt :=
  { x with
    out := fun channel => x.out channel ++
      ((x.xChunk (x.source channel) x.xChunkCurrent).drop x.xChunkPos).take xferSamples
    xChunkPos := x.xChunkPos + xferSamples
    accesses := x.accesses ++ [.chunk (x.source false) x.xChunkCurrent x.xChunkPos xferSamples,
      .chunk (x.source true) x.xChunkCurrent x.xChunkPos xferSamples] }

/-- The chunk is marked unused, and the other one is next. -/
def swap (x : Qt) : Qt :=
  { x with
    xChunkUsed := Function.update x.xChunkUsed x.xChunkCurrent false
    xChunkPos := 0
    xChunkCurrent := !x.xChunkCurrent }

/-- The rest of the output is zeros. -/
def zeros (n : Nat) (x : Qt) : Qt :=
  { x with out := fun channel => x.out channel ++ List.replicate n .zero }

/-- `while(1)` in `pdp_qt_perform`, for so many rounds at most. -/
def performFrom : (rounds n : Nat) → Qt → Option Qt
  | 0, _, _ => none
  | rounds + 1, n, x =>
      if x.xChunkUsed x.xChunkCurrent then
        let xferSamples := min n (x.xChunkSize - x.xChunkPos)
        let x := x.transfer xferSamples
        if x.xChunkSize = x.xChunkPos then performFrom rounds (n - xferSamples) x.swap
        else some x
      else some (x.zeros n)

/-! ## What is right -/

/-- What is heard of some samples. -/
def heard (l : List Sample) : List Sample := l.filter (· ≠ .zero)

/-- The first decoded samples of a channel. -/
def stream (channel : Bool) (n : Nat) : List Sample :=
  (List.range' 0 n).map (Sample.decoded channel)

/-- Inside the chunk, or inside an array with an entry for each channel. -/
def Access.Inside (chunkSize audioChannels : Nat) : Access → Prop
  | .chunk _ _ start count => start + count ≤ chunkSize
  | .audiochans index => index < audioChannels

/-- What is put out is zeros and the decoded samples in order, each once; accesses are inside the
arrays; and the next block will end, and will be of its size. -/
structure Right (x : Qt) : Prop where
  out : ∀ channel, heard (x.out channel) <+: stream (x.source channel) x.decoded
  inside : ∀ a ∈ x.accesses, a.Inside x.xChunkSize x.xAudioChannels
  ends : ∀ n, ∃ x', performFrom 3 n x = some x' ∧
    ∀ channel, (x'.out channel).length = (x.out channel).length + n

/-- If the inactive chunk is filled: there is more than one channel, the position is not behind the
end, and what the decoder leaves alone is zeros. -/
def FillsClean (remaining : Int) (x : Qt) : Prop :=
  x.xChunkUsed (!x.xChunkCurrent) = false → remaining ≠ 0 → 2 ≤ x.xAudioChannels ∧
    0 ≤ remaining ∧
    ∀ channel, ∀ s ∈ (x.xChunk channel (!x.xChunkCurrent)).drop remaining.toNat, s = .zero

/-- Bangs of this kind and blocks, in any order. -/
inductive Run (ok : Int → Qt → Prop) (chunkSize audioChannels : Nat) : Qt → Prop
  | new {x : Qt} : new chunkSize audioChannels = some x → Run ok chunkSize audioChannels x
  | bangaudio {x : Qt} (remaining : Int) : Run ok chunkSize audioChannels x → ok remaining x →
      Run ok chunkSize audioChannels (x.bangaudio remaining)
  | perform {x x' : Qt} {rounds n : Nat} : Run ok chunkSize audioChannels x →
      performFrom rounds n x = some x' → Run ok chunkSize audioChannels x'

/-! ## Samples that are heard -/

section Heard

variable {l l' : List Sample} {channel : Bool} {n k : Nat}

theorem heard_append : heard (l ++ l') = heard l ++ heard l' := List.filter_append _ _

theorem heard_eq_nil (h : ∀ s ∈ l, s = .zero) : heard l = [] :=
  List.filter_eq_nil_iff.mpr fun s hs hne => (of_decide_eq_true hne) (h s hs)

theorem heard_replicate : heard (List.replicate n .zero) = [] :=
  heard_eq_nil fun _ hs => List.eq_of_mem_replicate hs

theorem heard_decoded {start : Nat} : heard ((List.range' start n).map (Sample.decoded channel)) =
    (List.range' start n).map (Sample.decoded channel) := by
  refine List.filter_eq_self.mpr fun s hs => decide_eq_true ?_
  obtain ⟨i, _, rfl⟩ := List.mem_map.mp hs
  exact Sample.noConfusion

theorem stream_add : stream channel (n + k) =
    stream channel n ++ (List.range' n k).map (Sample.decoded channel) := by
  unfold stream
  rw [← List.map_append]
  congr 1
  have happend := @List.range'_append_1 0 n k
  rw [Nat.zero_add] at happend
  exact happend.symm

end Heard

/-! ## Conservation -/

/-- What is left to play of a channel: the rest of the active chunk, and the other one. -/
def pending (x : Qt) (channel : Bool) : List Sample :=
  (if x.xChunkUsed x.xChunkCurrent then (x.xChunk channel x.xChunkCurrent).drop x.xChunkPos
    else []) ++
  if x.xChunkUsed (!x.xChunkCurrent) then x.xChunk channel (!x.xChunkCurrent) else []

/-- What has been played and what is left are the decoded samples; and the chunks are whole. -/
structure Conserved (x : Qt) : Prop where
  length : ∀ channel i, (x.xChunk channel i).length = x.xChunkSize
  pos : x.xChunkPos < x.xChunkSize
  samples : ∀ channel, heard (x.out channel ++ x.pending (x.source channel)) =
    stream (x.source channel) x.decoded
  inside : ∀ a ∈ x.accesses, a.Inside x.xChunkSize x.xAudioChannels

section Steps

variable {x x' : Qt} {chunkSize audioChannels n k rounds : Nat} {remaining : Int}

/-- Both sizes are numbers of bytes that an `int` counts. -/
theorem new_eq_some : new chunkSize audioChannels = some x ↔
    (16 * chunkSize < 2 ^ 31 ∧ 8 * audioChannels < 2 ^ 31) ∧
      x = opened chunkSize audioChannels := by
  rw [← pdpAlloc_eq_some, ← pdpAlloc_eq_some]
  unfold new
  cases pdpAlloc (16 * chunkSize) with
  | none => exact iff_of_false (fun h => by cases h) fun h => by cases h.1.1
  | some _ =>
      cases pdpAlloc (8 * audioChannels) with
      | none => exact iff_of_false (fun h => by cases h) fun h => by cases h.1.2
      | some _ => exact ⟨fun h => ⟨⟨rfl, rfl⟩, (Option.some.inj h).symm⟩, fun h => h.2 ▸ rfl⟩

theorem conserved_opened (h : 1 ≤ chunkSize) : Conserved (opened chunkSize audioChannels) where
  length _ _ := List.length_replicate
  pos := h
  samples _ := rfl
  inside _ ha := absurd ha List.not_mem_nil

theorem inside_append {l l' : List Access} (h : ∀ a ∈ l, a.Inside chunkSize audioChannels)
    (h' : ∀ a ∈ l', a.Inside chunkSize audioChannels) :
    ∀ a ∈ l ++ l', a.Inside chunkSize audioChannels :=
  fun a ha => (List.mem_append.mp ha).elim (h a) (h' a)

theorem not_ne (b : Bool) : (!b) ≠ b := by
  cases b with
  | false => exact Bool.true_eq_false.mp
  | true => exact Bool.false_ne_true

theorem heard_pending_clear (hused : x.xChunkUsed x.xChunkCurrent = false) (channel : Bool) :
    heard (x.clear.pending channel) = heard (x.pending channel) := by
  unfold pending Qt.clear
  simp only [hused, Bool.false_eq_true, if_false, if_true, List.nil_append, Function.update_self,
    Function.update_of_ne (not_ne _)]
  rw [List.drop_replicate, heard_append, heard_replicate, List.nil_append]

/-- To clear an unused chunk and to play it takes nothing away and adds zeros. -/
theorem Conserved.clear (h : x.Conserved) (hused : x.xChunkUsed x.xChunkCurrent = false) :
    x.clear.Conserved where
  length channel i := by
    unfold Qt.clear
    dsimp only
    by_cases hi : i = x.xChunkCurrent
    · rw [hi, Function.update_self, List.length_replicate]
    · rw [Function.update_of_ne hi, h.length]
  pos := h.pos
  samples channel := by
    have hsamples := h.samples channel
    rw [heard_append, ← heard_pending_clear hused, ← heard_append] at hsamples
    exact hsamples
  inside := by
    refine inside_append h.inside fun a ha => ?_
    have hfits : 0 + x.xChunkSize ≤ x.xChunkSize := Nat.le_of_eq (Nat.zero_add _)
    rcases List.mem_pair.mp ha with rfl | rfl
    · exact hfits
    · exact hfits

theorem Conserved.activate (h : x.Conserved) : x.activate.Conserved := by
  unfold Qt.activate
  split
  · exact h
  · next hused => exact h.clear (eq_false_of_ne_true hused)

/-- A clean fill adds the next samples at the end of what is left. -/
theorem Conserved.fill (h : x.Conserved) (hused : x.xChunkUsed (!x.xChunkCurrent) = false)
    (hchannels : 2 ≤ x.xAudioChannels) (hk : k ≤ x.xChunkSize)
    (hclean : ∀ channel, ∀ s ∈ (x.xChunk channel (!x.xChunkCurrent)).drop k, s = .zero) :
    (x.fill k).Conserved := by
  have hone : x.xAudioChannels ≠ 1 := by omega
  have hne : x.xChunkCurrent ≠ !x.xChunkCurrent := (not_ne _).symm
  have hfill : x.fill k = { x with
      xChunkUsed := Function.update x.xChunkUsed (!x.xChunkCurrent) true
      decoded := x.decoded + k
      xChunk := fun channel =>
        Function.update (x.xChunk channel) (!x.xChunkCurrent) (x.decode channel k)
      accesses := x.accesses ++ [.audiochans 0, .audiochans 1] ++
        [.chunk false (!x.xChunkCurrent) 0 k, .chunk true (!x.xChunkCurrent) 0 k] } := by
    unfold Qt.fill
    dsimp only
    split
    · next h1 => exact absurd h1 hone
    · simp only [hone, false_and, if_false]
  rw [hfill]
  constructor
  case length =>
    intro channel i
    dsimp only
    by_cases hi : i = !x.xChunkCurrent
    · rw [hi, Function.update_self]
      unfold decode
      rw [List.length_append, List.length_map, List.length_range', List.length_drop, h.length]
      omega
    · rw [Function.update_of_ne hi, h.length]
  case pos => exact h.pos
  case samples =>
    intro channel
    have hsamples := h.samples channel
    have hsource : x.source channel = channel := if_neg hone
    rw [hsource] at hsamples
    change heard (x.out channel ++ pending _ (x.source channel)) =
      stream (x.source channel) (x.decoded + k)
    rw [hsource]
    unfold pending at hsamples ⊢
    rw [hused, if_neg Bool.false_ne_true, List.append_nil] at hsamples
    simp only [Function.update_self, Function.update_of_ne hne, if_true]
    rw [← List.append_assoc, heard_append, hsamples, stream_add]
    congr 1
    unfold decode
    rw [heard_append, heard_decoded, heard_eq_nil (hclean channel), List.append_nil]
  case inside =>
    refine inside_append (inside_append h.inside ?_) ?_
    · intro a ha
      rcases List.mem_pair.mp ha with rfl | rfl
      · exact Nat.lt_of_lt_of_le Nat.zero_lt_two hchannels
      · exact hchannels
    · intro a ha
      have hfits : 0 + k ≤ x.xChunkSize := by omega
      rcases List.mem_pair.mp ha with rfl | rfl
      · exact hfits
      · exact hfits

theorem Conserved.bangaudio (h : x.Conserved) (hclean : FillsClean remaining x) :
    (x.bangaudio remaining).Conserved := by
  have hother : x.activate.xChunkUsed (!x.activate.xChunkCurrent) =
        x.xChunkUsed (!x.xChunkCurrent) ∧
      ∀ channel, x.activate.xChunk channel (!x.activate.xChunkCurrent) =
        x.xChunk channel (!x.xChunkCurrent) := by
    unfold Qt.activate
    split
    · exact ⟨rfl, fun _ => rfl⟩
    · exact ⟨Function.update_of_ne (not_ne _) _ _, fun _ => Function.update_of_ne (not_ne _) _ _⟩
  have hsame : x.activate.xAudioChannels = x.xAudioChannels := by
    unfold Qt.activate
    split <;> rfl
  have hactive := h.activate
  unfold Qt.bangaudio
  dsimp only
  generalize x.activate = y at hother hsame hactive ⊢
  split
  · exact hactive
  · next hamount =>
      split
      · exact hactive
      · next hused =>
          have hremaining : remaining ≠ 0 := by
            rintro rfl
            exact hamount (by omega)
          have hunused := eq_false_of_ne_true hused
          obtain ⟨hchannels, hnonneg, hzeros⟩ := hclean (hother.1.symm.trans hunused) hremaining
          refine hactive.fill hunused (hsame.symm ▸ hchannels) (by omega) fun channel s hs => ?_
          rcases Int.le_total remaining y.xChunkSize with hle | hge
          · rw [Int.min_eq_left hle, hother.2] at hs
            exact hzeros channel s hs
          · rw [Int.min_eq_right hge, Int.toNat_natCast, List.drop_eq_nil_of_le] at hs
            · cases hs
            · exact Nat.le_of_eq (hactive.length _ _)

/-! ### A block -/

/-- What goes to the output is taken from what is left. -/
theorem transfer_pending (hused : x.xChunkUsed x.xChunkCurrent = true) (channel : Bool) :
    (x.transfer k).out channel ++ (x.transfer k).pending (x.source channel) =
      x.out channel ++ x.pending (x.source channel) := by
  unfold pending transfer
  dsimp only
  rw [hused, if_pos rfl, if_pos rfl, ← List.drop_drop, List.append_assoc,
    ← List.append_assoc (List.take _ _), List.take_append_drop]

theorem Conserved.swap_pending (h : x.Conserved) (hused : x.xChunkUsed x.xChunkCurrent = true)
    (hk : x.xChunkSize = x.xChunkPos + k) (channel : Bool) :
    (x.transfer k).swap.pending channel = (x.transfer k).pending channel := by
  have hnil : (x.xChunk channel x.xChunkCurrent).drop (x.xChunkPos + k) = [] :=
    List.drop_eq_nil_of_le (Nat.le_of_eq (by rw [h.length, hk]))
  unfold pending swap transfer
  simp only [hused, if_true, hnil, List.nil_append, Bool.not_not, Function.update_self,
    Function.update_of_ne (not_ne _), Bool.false_eq_true, if_false, List.append_nil, List.drop_zero]

theorem Conserved.transfer_inside (h : x.Conserved) (hk : x.xChunkPos + k ≤ x.xChunkSize) :
    ∀ a ∈ (x.transfer k).accesses, a.Inside x.xChunkSize x.xAudioChannels := by
  refine inside_append h.inside fun a ha => ?_
  rcases List.mem_pair.mp ha with rfl | rfl
  · exact hk
  · exact hk

theorem Conserved.length_transfer (h : x.Conserved) (hk : x.xChunkPos + k ≤ x.xChunkSize)
    (channel : Bool) : ((x.transfer k).out channel).length = (x.out channel).length + k := by
  change (x.out channel ++ _).length = _
  rw [List.length_append, List.length_take, List.length_drop, h.length]
  omega

/-- A block has its length, and what is heard of it is taken from what is left. -/
theorem Conserved.performFrom (h : x.Conserved) (hperform : performFrom rounds n x = some x') :
    x'.Conserved ∧ ∀ channel, (x'.out channel).length = (x.out channel).length + n := by
  induction rounds generalizing n x with
  | zero => cases hperform
  | succ rounds ih =>
      unfold Qt.performFrom at hperform
      dsimp only at hperform
      have hpos := h.pos
      split at hperform
      · next hused =>
          have hk : x.xChunkPos + min n (x.xChunkSize - x.xChunkPos) ≤ x.xChunkSize := by omega
          have hlength := h.length_transfer hk
          split at hperform
          · next hfinished =>
              change x.xChunkSize = x.xChunkPos + _ at hfinished
              have hswap : (x.transfer (min n (x.xChunkSize - x.xChunkPos))).swap.Conserved := by
                refine ⟨h.length, Nat.lt_of_le_of_lt (Nat.zero_le _) hpos, fun channel => ?_,
                  h.transfer_inside hk⟩
                change heard ((x.transfer _).out channel ++ Qt.pending _ (x.source channel)) = _
                rw [h.swap_pending hused hfinished, transfer_pending hused]
                exact h.samples channel
              obtain ⟨hconserved, hout⟩ := ih hswap hperform
              refine ⟨hconserved, fun channel => ?_⟩
              rw [hout]
              change ((x.transfer _).out channel).length + _ = _
              rw [hlength]
              omega
          · next hrest =>
              change x.xChunkSize ≠ x.xChunkPos + _ at hrest
              cases hperform
              refine ⟨⟨h.length, ?_, fun channel => ?_, h.transfer_inside hk⟩, fun channel => ?_⟩
              · exact Nat.lt_of_le_of_ne hk hrest.symm
              · change heard (_ ++ (x.transfer _).pending (x.source channel)) = _
                rw [transfer_pending hused]
                exact h.samples channel
              · rw [hlength]
                omega
      · cases hperform
        refine ⟨⟨h.length, hpos, fun channel => ?_, h.inside⟩, fun channel => ?_⟩
        · change heard (x.out channel ++ List.replicate n Sample.zero ++
            x.pending (x.source channel)) = _
          rw [heard_append, heard_append, heard_replicate, List.append_nil, ← heard_append]
          exact h.samples channel
        · change (x.out channel ++ List.replicate n Sample.zero).length = _
          rw [List.length_append, List.length_replicate]

def usedChunks (x : Qt) : Nat :=
  (x.xChunkUsed x.xChunkCurrent).toNat + (x.xChunkUsed (!x.xChunkCurrent)).toNat

/-- Every round but the last one makes a chunk unused. -/
theorem performFrom_ends (h : x.usedChunks < rounds) :
    ∃ x', Qt.performFrom rounds n x = some x' := by
  induction rounds generalizing n x with
  | zero => exact absurd h (Nat.not_lt_zero _)
  | succ rounds ih =>
      unfold Qt.performFrom
      dsimp only
      split
      · next hused =>
          split
          · refine ih ?_
            unfold usedChunks at h ⊢
            unfold swap transfer
            simp only [Bool.not_not, Function.update_self, Function.update_of_ne (not_ne _)]
            rw [hused, Bool.toNat_true] at h
            rw [Bool.toNat_false]
            omega
          · exact ⟨_, rfl⟩
      · exact ⟨_, rfl⟩

theorem usedChunks_le : x.usedChunks ≤ 2 :=
  Nat.add_le_add (Bool.toNat_le _) (Bool.toNat_le _)

theorem Conserved.right (h : x.Conserved) : x.Right where
  out channel := by
    rw [← h.samples channel, heard_append]
    exact List.prefix_append _ _
  inside := h.inside
  ends n := by
    obtain ⟨x', hx'⟩ := @performFrom_ends x n 3 (Nat.lt_succ_of_le usedChunks_le)
    exact ⟨x', hx', (h.performFrom hx').2⟩

end Steps

/-! ## Every run -/

section Every

variable {chunkSize audioChannels : Nat}

/-- The object is there exactly if both arrays can be made; and if no fill leaves something over
from an earlier chunk, the audio is right. -/
theorem qt_right (hsize : 1 ≤ chunkSize) :
    ((∃ x, new chunkSize audioChannels = some x) ↔
      16 * chunkSize < 2 ^ 31 ∧ 8 * audioChannels < 2 ^ 31) ∧
    ∀ x, Run FillsClean chunkSize audioChannels x → x.Right := by
  refine ⟨?_, fun x h => Conserved.right ?_⟩
  · simp only [new_eq_some, exists_and_left, exists_eq, and_true]
  induction h with
  | new hnew => exact (new_eq_some.mp hnew).2 ▸ conserved_opened hsize
  | bangaudio remaining _ hclean ih => exact ih.bangaudio hclean
  | perform _ hperform ih => exact (ih.performFrom hperform).1

/-! ### Runs that are not right -/

/-- Two channels, and chunks of two samples: a full chunk is decoded and played, and then
`remaining` samples are left. -/
def afterChunk (remaining : Int) : Option Qt := do
  let x ← performFrom 3 4 ((opened 2 2).bangaudio 10)
  performFrom 3 4 (x.bangaudio remaining)

/-- The file has another full chunk. -/
theorem qt_right_afterChunk : ∃ x, afterChunk 2 = some x ∧ x.Right := by
  have hclean : ∀ (y : Qt), y.xAudioChannels = 2 → (∀ channel i, (y.xChunk channel i).length = 2) →
      ∀ remaining, 2 ≤ remaining → FillsClean remaining y := by
    intro y hchannels hlength remaining hle _ _
    refine ⟨Nat.le_of_eq hchannels.symm, by omega, fun channel s hs => ?_⟩
    rw [List.drop_eq_nil_of_le (by rw [hlength]; omega)] at hs
    cases hs
  have hfirst : Run FillsClean 2 2 _ := .bangaudio 10 (.new rfl)
    (hclean _ rfl (fun _ _ => rfl) 10 (by decide))
  have hplayed : Run FillsClean 2 2 _ := @Run.perform _ _ _ _ _ 3 4 hfirst rfl
  have hsecond : Run FillsClean 2 2 _ := .bangaudio 2 hplayed
    (hclean _ rfl (by decide) 2 (by decide))
  exact ⟨_, rfl, (qt_right (by decide)).2 _ (@Run.perform _ _ _ _ _ 3 4 hsecond rfl)⟩

/-- With one sample left, a sample of the first chunk is played again; with one channel, the second
pointer is stored behind the array; and there are no buffers for chunks of `2 ^ 27` samples. -/
theorem not_qt_right :
    (∃ x, Run (fun _ _ => True) 2 2 x ∧ ¬ heard (x.out false) <+: stream false x.decoded) ∧
    (∃ x, Run (fun _ _ => True) 1 1 x ∧ ∃ a ∈ x.accesses, ¬ a.Inside 1 1) ∧
    new (2 ^ 27) 2 = none := by
  refine ⟨?_, ?_, rfl⟩
  · have hplayed : Run (fun _ _ => True) 2 2 _ := @Run.perform _ _ _ _ _ 3 4
      (.bangaudio 10 (.new rfl) trivial) rfl
    refine ⟨_, @Run.perform _ _ _ _ _ 3 4 (.bangaudio 1 hplayed trivial) rfl, ?_⟩
    decide
  · refine ⟨_, .bangaudio 10 (.new rfl) trivial, .audiochans 1, ?_, Nat.lt_irrefl 1⟩
    exact List.mem_append_left _ (List.mem_append_right _
      (List.mem_cons_of_mem _ (List.mem_singleton.mpr rfl)))

end Every

end Qt

end PureDataPacket
