/-
# `PureDataPacket.Lib.Bytes` — words, copies and chunks in a list of bytes

What C code does with a buffer: it stores 32-bit words in it (`le32`, `word`,
`words`; the byte order is that of a little-endian machine), copies a block into
it (`blit`), and cuts it into chunks of equal size (`chunk`).

The last part is about putting chunks together again: a buffer into which every
chunk of `data` has been copied to its place, in whatever order and however
often, is `data`.
-/
import Mathlib.Algebra.Group.Int.Defs
import Mathlib.Algebra.Group.Nat.Defs
import Mathlib.Data.List.Basic
import Mathlib.Data.List.TakeDrop

namespace PureDataPacket

/-! ## Words -/

/-- The four bytes of a word. -/
def le32 (n : Nat) : List UInt8 :=
  [UInt8.ofNat n, UInt8.ofNat (n / 2 ^ 8), UInt8.ofNat (n / 2 ^ 16), UInt8.ofNat (n / 2 ^ 24)]

def ofBytes (a b c d : UInt8) : Nat :=
  a.toNat + 2 ^ 8 * b.toNat + 2 ^ 16 * c.toNat + 2 ^ 24 * d.toNat

/-- The word at the start of a buffer. -/
def word : List UInt8 → Nat
  | a :: b :: c :: d :: _ => ofBytes a b c d
  | _ => 0

def words : List UInt8 → List Nat
  | a :: b :: c :: d :: l => ofBytes a b c d :: words l
  | _ => []

theorem ofBytes_le32 {n : Nat} (h : n < 2 ^ 32) :
    ofBytes (UInt8.ofNat n) (UInt8.ofNat (n / 2 ^ 8)) (UInt8.ofNat (n / 2 ^ 16))
      (UInt8.ofNat (n / 2 ^ 24)) = n := by
  simp only [ofBytes, UInt8.toNat_ofNat']
  omega

theorem word_le32 {n : Nat} (h : n < 2 ^ 32) (l : List UInt8) : word (le32 n ++ l) = n :=
  ofBytes_le32 h

theorem word_lt (l : List UInt8) : word l < 2 ^ 32 := by
  unfold word
  split
  · next a b c d _ =>
      have ha := a.toNat_lt
      have hb := b.toNat_lt
      have hc := c.toNat_lt
      have hd := d.toNat_lt
      unfold ofBytes
      omega
  · decide

theorem words_encode {l : List Nat} (h : ∀ n ∈ l, n < 2 ^ 32) : words (l.flatMap le32) = l := by
  induction l with
  | nil => rfl
  | cons n l ih =>
      have hn : ofBytes _ _ _ _ = n := ofBytes_le32 (h n List.mem_cons_self)
      have hl := ih fun m hm => h m (List.mem_cons_of_mem _ hm)
      show ofBytes _ _ _ _ :: words (l.flatMap le32) = n :: l
      rw [hn, hl]

theorem length_encode (l : List Nat) : (l.flatMap le32).length = 4 * l.length := by
  induction l with
  | nil => rfl
  | cons n l ih =>
      rw [List.flatMap_cons, List.length_append, ih, List.length_cons]
      show 4 + _ = _
      omega

/-! ## Copies -/

variable {α : Type}

/-- `memcpy(m + off, l)`. -/
def blit (m : List α) (off : Nat) (l : List α) : List α :=
  m.take off ++ l ++ m.drop (off + l.length)

theorem length_blit {m l : List α} {off : Nat} (h : off + l.length ≤ m.length) :
    (blit m off l).length = m.length := by
  simp only [blit, List.length_append, List.length_take, List.length_drop]
  omega

theorem getElem?_blit {m l : List α} {off : Nat} (h : off + l.length ≤ m.length) (i : Nat) :
    (blit m off l)[i]? = if off ≤ i ∧ i < off + l.length then l[i - off]? else m[i]? := by
  have hoff : (m.take off).length = off := by
    rw [List.length_take]
    omega
  unfold blit
  rw [List.append_assoc]
  rcases Nat.lt_or_ge i off with hlt | hge
  · rw [List.getElem?_append_left (by omega), List.getElem?_take_of_lt hlt, if_neg (by omega)]
  · rw [List.getElem?_append_right (by omega), hoff]
    rcases Nat.lt_or_ge i (off + l.length) with hlt | hge'
    · rw [List.getElem?_append_left (by omega), if_pos ⟨hge, hlt⟩]
    · rw [List.getElem?_append_right (by omega), List.getElem?_drop, if_neg (by omega)]
      congr 1
      omega

/-! ## Chunks -/

/-- The `i`-th chunk of `c` elements; the last one may be shorter. -/
def chunk (c i : Nat) (data : List α) : List α := (data.drop (c * i)).take c

theorem length_chunk (c i : Nat) (data : List α) :
    (chunk c i data).length = min c (data.length - c * i) := by
  simp only [chunk, List.length_take, List.length_drop]

theorem getElem?_chunk {c i j : Nat} (data : List α) (h : j < c) :
    (chunk c i data)[j]? = data[c * i + j]? := by
  unfold chunk
  rw [List.getElem?_take_of_lt h, List.getElem?_drop]

/-- The two buffers are the same where the `i`-th chunk is. -/
def AgreesAt (c i : Nat) (a b : List α) : Prop :=
  ∀ j < c, a[c * i + j]? = b[c * i + j]?

theorem chunk_fits {c i : Nat} {data : List α} (h : c * i < data.length) :
    c * i + (chunk c i data).length ≤ data.length := by
  rw [length_chunk]
  omega

theorem agreesAt_blit_self {c i : Nat} {buf data : List α} (hlen : buf.length = data.length)
    (hi : c * i < data.length) : AgreesAt c i (blit buf (c * i) (chunk c i data)) data := by
  intro j hj
  have hfits := chunk_fits hi
  rw [getElem?_blit (by omega)]
  split
  · rw [Nat.add_sub_cancel_left, getElem?_chunk data hj]
  · next hout =>
      rw [length_chunk] at hout
      rw [List.getElem?_eq_none (by omega), List.getElem?_eq_none (by omega)]

theorem agreesAt_blit_other {c i k : Nat} {buf data : List α} (hlen : buf.length = data.length)
    (hk : c * k < data.length) (hne : k ≠ i) (h : AgreesAt c i buf data) :
    AgreesAt c i (blit buf (c * k) (chunk c k data)) data := by
  intro j hj
  have hfits := chunk_fits hk
  have hshort : (chunk c k data).length ≤ c := by
    rw [length_chunk]
    omega
  have hapart : c * i + j < c * k ∨ c * k + c ≤ c * i + j := by
    rcases Nat.lt_or_gt_of_ne hne with hlt | hgt
    · have := Nat.mul_le_mul_left c (Nat.succ_le_of_lt hlt)
      rw [Nat.mul_succ] at this
      omega
    · have := Nat.mul_le_mul_left c (Nat.succ_le_of_lt hgt)
      rw [Nat.mul_succ] at this
      omega
  rw [getElem?_blit (by omega), if_neg (by omega)]
  exact h j hj

/-- A buffer that agrees with `data` on every chunk is `data`. -/
theorem eq_of_agreesAt {c n : Nat} {buf data : List α} (hc : 0 < c)
    (hlen : buf.length = data.length) (hn : data.length ≤ c * n)
    (h : ∀ i < n, AgreesAt c i buf data) : buf = data := by
  refine List.ext_getElem? fun p => ?_
  rcases Nat.lt_or_ge p data.length with hp | hp
  · have hi : p / c < n := Nat.div_lt_of_lt_mul (by omega)
    have hat := h (p / c) hi (p % c) (Nat.mod_lt p hc)
    rw [Nat.div_add_mod] at hat
    exact hat
  · rw [List.getElem?_eq_none (by omega), List.getElem?_eq_none hp]

end PureDataPacket
