/-
# `PureDataPacket.Image.OverTime` — filters that go along time

`pdp_bqt` gives its filter one image after the other, and two more of the same size for the state.
So the line that the filter goes along is what one pixel is in image after image, and each pixel has
a state of its own.  In plain C the state is cut to 16 bits after each image, in `gccMmx` it has no
more bits to begin with.

An overflow of an `s32` wraps.  The three images of a call are apart in memory.

| | |
| :-- | :-- |
| `Stepped` | some pixels have taken a step and nothing else has changed |
| `rounds` | a loop whose rounds do `size` pixels each |
| `filtersTime` | by induction on the images, for a call that steps all pixels |
-/
import PureDataPacket.Image.Filtering
import PureDataPacket.Image.Noise

namespace PureDataPacket

/-- The images of a call. -/
structure TimePlanes where
  image : List S16
  state0 : List S16
  state1 : List S16

/-! ## The routines -/

namespace Portable

/-- What a round makes of a pixel: `yy` and the new states, cut to 16 bits. -/
def bqtPixel (d : Bq) (u : S16 × S16) (x : S16) : S16 × S16 × S16 :=
  let r := bqPixel d (u.1.signExtend 32, u.2.signExtend 32) x
  (r.1, toS16 (CLAMP16 r.2.1.toInt), toS16 (CLAMP16 r.2.2.toInt))

/-- A round of the loop of `pdp_imageproc_bqt_process`. -/
def bqtRound (d : Bq) (i : Nat) (p : TimePlanes) : Option TimePlanes := do
  let xx ← p.image[i]?
  let u1 ← p.state0[i]?
  let u2 ← p.state1[i]?
  let r := bqtPixel d (u1, u2) xx
  return ⟨p.image.set i r.1, p.state0.set i r.2.1, p.state1.set i r.2.2⟩

/-- `pdp_imageproc_bqt_process`. -/
def pdpImageprocBqtProcess (d : Bq) (width height : Nat) (p : TimePlanes) : Option TimePlanes :=
  rounds (bqtRound d) (u32 (width * height)) 0 p

end Portable

namespace GccMmx

/-- A round of the loop of `pixel_biquad_time_s16`. -/
def timeRound (c : BiquadCoef M64) (v : Nat) (p : TimePlanes) : Option TimePlanes := do
  let x ← M64.load p.image v
  let u1 ← M64.load p.state0 v
  let u2 ← M64.load p.state1 v
  let (y, u) := biquadDf2 c ⟨u1, u2⟩ x
  return ⟨M64.store p.image v y, M64.store p.state0 v u.u1, M64.store p.state1 v u.u2⟩

/-- `pixel_biquad_time_s16`. -/
def pixelBiquadTimeS16 (c : BiquadCoef M64) (vMax : Nat) (p : TimePlanes) : Option TimePlanes :=
  rounds (timeRound c) vMax 0 p

/-- `pdp_imageproc_bqt_process`. -/
def pdpImageprocBqtProcess (d : Bq) (width height : Nat) (p : TimePlanes) : Option TimePlanes :=
  pixelBiquadTimeS16 d.coefs (u32 (width * height) / 4) p

/-- The recurrence for one pixel, in a lane. -/
def df2Pixel (c : BiquadCoef S16) (u : S16 × S16) (x : S16) : S16 × S16 × S16 :=
  let r := df2 c ⟨u.1, u.2⟩ x
  (r.1, r.2.u1, r.2.u2)

end GccMmx

/-! ## One call -/

namespace TimePlanes

variable {p q r : TimePlanes} {lo mid hi size n : Nat}
  {step : Nat → S16 × S16 → S16 → S16 × S16 × S16}

def cell (p : TimePlanes) (i : Nat) : Option S16 × Option S16 × Option S16 :=
  (p.image[i]?, p.state0[i]?, p.state1[i]?)

/-- All three have so many pixels. -/
structure Has (p : TimePlanes) (n : Nat) : Prop where
  image : n ≤ p.image.length
  state0 : n ≤ p.state0.length
  state1 : n ≤ p.state1.length

theorem Has.mono (h : p.Has n) {m : Nat} (hle : m ≤ n) : p.Has m :=
  ⟨Nat.le_trans hle h.image, Nat.le_trans hle h.state0, Nat.le_trans hle h.state1⟩

theorem Has.cell (h : p.Has n) {i : Nat} (hi : i < n) :
    ∃ x u1 u2, p.cell i = (some x, some u1, some u2) := by
  have h0 := List.getElem?_eq_getElem (Nat.lt_of_lt_of_le hi h.image)
  have h1 := List.getElem?_eq_getElem (Nat.lt_of_lt_of_le hi h.state0)
  have h2 := List.getElem?_eq_getElem (Nat.lt_of_lt_of_le hi h.state1)
  exact ⟨_, _, _, congrArg₂ Prod.mk h0 (congrArg₂ Prod.mk h1 h2)⟩

/-- The pixels from `lo` on, up to `hi`, have taken a step, and nothing else has changed. -/
structure Stepped (step : Nat → S16 × S16 → S16 → S16 × S16 × S16) (lo hi : Nat)
    (p q : TimePlanes) : Prop where
  has : ∀ n, p.Has n → q.Has n
  pixels : ∀ i, lo ≤ i → i < hi → ∀ x u1 u2, p.cell i = (some x, some u1, some u2) →
    q.cell i = (some (step i (u1, u2) x).1, some (step i (u1, u2) x).2.1,
      some (step i (u1, u2) x).2.2)
  others : ∀ i, i < lo ∨ hi ≤ i → q.cell i = p.cell i

namespace Stepped

theorem refl : Stepped step lo lo p p :=
  ⟨fun _ h => h, fun i hlo hhi => by omega, fun _ _ => rfl⟩

theorem append (h : Stepped step lo mid p q) (h' : Stepped step mid hi q r) (hlo : lo ≤ mid)
    (hhi : mid ≤ hi) : Stepped step lo hi p r := by
  constructor
  · exact fun n hn => h'.has n (h.has n hn)
  · intro i hi₁ hi₂ x u1 u2 hcell
    rcases Nat.lt_or_ge i mid with hmid | hmid
    · rw [h'.others i (Or.inl hmid)]
      exact h.pixels i hi₁ hmid x u1 u2 hcell
    · exact h'.pixels i hmid hi₂ x u1 u2 ((h.others i (Or.inr hmid)).trans hcell)
  · intro i hi
    rw [h'.others i (by omega), h.others i (by omega)]

theorem rounds {body : Nat → TimePlanes → Option TimePlanes}
    (hbody : ∀ v p, p.Has (size * (v + 1)) →
      ∃ q, body v p = some q ∧ Stepped step (size * v) (size * (v + 1)) p q) (n : Nat) :
    ∀ v p, p.Has (size * (v + n)) →
      ∃ q, PureDataPacket.rounds body n v p = some q ∧
        Stepped step (size * v) (size * (v + n)) p q := by
  induction n with
  | zero => exact fun v p _ => ⟨p, rfl, refl⟩
  | succ n ih =>
      intro v p hp
      have hcount : v + (n + 1) = v + 1 + n := by omega
      rw [hcount] at hp ⊢
      have hone : size * (v + 1) ≤ size * (v + 1 + n) := Nat.mul_le_mul_left _ (by omega)
      obtain ⟨q, hround, hq⟩ := hbody v p (hp.mono hone)
      obtain ⟨r, hrounds, hr⟩ := ih (v + 1) q (hq.has _ hp)
      refine ⟨r, ?_, hq.append hr (Nat.mul_le_mul_left _ (by omega)) hone⟩
      unfold PureDataPacket.rounds
      rw [hround, Option.bind_some, hrounds]

end Stepped

end TimePlanes

open TimePlanes

theorem Portable.bqtRound_stepped (d : Portable.Bq) (i : Nat) (p : TimePlanes)
    (hp : p.Has (1 * (i + 1))) : ∃ q, Portable.bqtRound d i p = some q ∧
      Stepped (fun _ => Portable.bqtPixel d) (1 * i) (1 * (i + 1)) p q := by
  rw [Nat.one_mul] at hp ⊢
  rw [Nat.one_mul]
  obtain ⟨x, u1, u2, hcell⟩ := hp.cell (Nat.lt_succ_self i)
  obtain ⟨h0, hstates⟩ := Prod.mk.inj hcell
  obtain ⟨h1, h2⟩ := Prod.mk.inj hstates
  let r := Portable.bqtPixel d (u1, u2) x
  refine ⟨⟨p.image.set i r.1, p.state0.set i r.2.1, p.state1.set i r.2.2⟩, ?_, ?_⟩
  · unfold Portable.bqtRound
    rw [h0, h1, h2]
    rfl
  · constructor
    · intro n hn
      constructor
      · exact List.length_set.symm ▸ hn.image
      · exact List.length_set.symm ▸ hn.state0
      · exact List.length_set.symm ▸ hn.state1
    · intro j hlo hhi x' u1' u2' hcell'
      obtain rfl : i = j := by omega
      simp only [hcell, Prod.mk.injEq, Option.some.injEq] at hcell'
      obtain ⟨rfl, rfl, rfl⟩ := hcell'
      simp only [cell, List.getElem?_set_self hp.image, List.getElem?_set_self hp.state0,
        List.getElem?_set_self hp.state1]
      rfl
    · intro j hj
      have hne : i ≠ j := by omega
      simp only [cell, List.getElem?_set_ne hne]

theorem GccMmx.timeRound_stepped (c : BiquadCoef M64) (v : Nat) (p : TimePlanes)
    (hp : p.Has (4 * (v + 1))) : ∃ q, GccMmx.timeRound c v p = some q ∧
      Stepped (fun i => GccMmx.df2Pixel (c.lane (Fin.ofNat 4 i))) (4 * v) (4 * (v + 1)) p q := by
  have himage : 4 * v + 4 ≤ p.image.length := hp.image
  have hstate0 : 4 * v + 4 ≤ p.state0.length := hp.state0
  have hstate1 : 4 * v + 4 ≤ p.state1.length := hp.state1
  obtain ⟨x, hx, hxs⟩ := M64.load_eq_some himage
  obtain ⟨u1, hu1, hu1s⟩ := M64.load_eq_some hstate0
  obtain ⟨u2, hu2, hu2s⟩ := M64.load_eq_some hstate1
  let r := GccMmx.biquadDf2 c ⟨u1, u2⟩ x
  refine ⟨⟨M64.store p.image v r.1, M64.store p.state0 v r.2.u1, M64.store p.state1 v r.2.u2⟩,
    ?_, ?_⟩
  · unfold GccMmx.timeRound
    rw [hx, hu1, hu2]
    rfl
  · constructor
    · intro n hn
      constructor
      · exact M64.length_store.symm ▸ hn.image
      · exact M64.length_store.symm ▸ hn.state0
      · exact M64.length_store.symm ▸ hn.state1
    · intro j hlo hhi a b₁ b₂ hcell
      obtain ⟨l, rfl⟩ : ∃ l : Fin 4, j = 4 * v + l := ⟨⟨j - 4 * v, by omega⟩, by
        show j = 4 * v + (j - 4 * v)
        omega⟩
      have hlane : Fin.ofNat 4 (4 * v + l) = l := by
        apply Fin.ext
        show (4 * v + l) % 4 = l
        omega
      simp only [cell, hxs l, hu1s l, hu2s l, Prod.mk.injEq, Option.some.injEq] at hcell
      obtain ⟨rfl, rfl, rfl⟩ := hcell
      obtain ⟨hvalue, hstate⟩ := GccMmx.lane_biquadDf2 c ⟨u1, u2⟩ x l
      simp only [cell, M64.getElem?_store_self himage, M64.getElem?_store_self hstate0,
        M64.getElem?_store_self hstate1, hlane, GccMmx.df2Pixel]
      exact congrArg₂ Prod.mk (congrArg some hvalue)
        (congrArg (fun u : BiquadState S16 => (some u.u1, some u.u2)) hstate)
    · intro j hj
      have hother : j < 4 * v ∨ 4 * v + 4 ≤ j := by omega
      simp only [cell, M64.getElem?_store_other hother]

/-! ## Image after image -/

/-- A call for each image, with the states that the call before has left. -/
def overTime (call : TimePlanes → Option TimePlanes) :
    List (List S16) → List S16 → List S16 → Option (List (List S16) × List S16 × List S16)
  | [], state0, state1 => some ([], state0, state1)
  | image :: images, state0, state1 => do
      let p ← call ⟨image, state0, state1⟩
      let (rest, states) ← overTime call images p.state0 p.state1
      return (p.image :: rest, states)

/-- Along time, each of the first `n` pixels is filtered for itself, and the others stay what they
are. -/
def FiltersTime (call : TimePlanes → Option TimePlanes)
    (step : Nat → S16 × S16 → S16 → S16 × S16 × S16) (n : Nat) : Prop :=
  ∀ images state0 state1, (∀ image ∈ images, n ≤ image.length) → n ≤ state0.length →
    n ≤ state1.length → ∃ images' state0' state1',
      overTime call images state0 state1 = some (images', state0', state1') ∧
      (∀ i < n, ∀ xs u1 u2, images.map (·[i]?) = xs.map some → state0[i]? = some u1 →
        state1[i]? = some u2 →
          images'.map (·[i]?) = (scan (step i) (u1, u2) xs).1.map some ∧
          state0'[i]? = some (scan (step i) (u1, u2) xs).2.1 ∧
          state1'[i]? = some (scan (step i) (u1, u2) xs).2.2) ∧
      ∀ i, n ≤ i → images'.map (·[i]?) = images.map (·[i]?) ∧ state0'[i]? = state0[i]? ∧
        state1'[i]? = state1[i]?

theorem filtersTime {call : TimePlanes → Option TimePlanes}
    {step : Nat → S16 × S16 → S16 → S16 × S16 × S16} {n : Nat}
    (hcall : ∀ p : TimePlanes, p.Has n → ∃ q, call p = some q ∧ Stepped step 0 n p q) :
    FiltersTime call step n := by
  intro images
  induction images with
  | nil =>
      intro state0 state1 _ _ _
      refine ⟨[], state0, state1, rfl, fun i _ xs u1 u2 hxs h0 h1 => ?_, fun _ _ => ⟨rfl, rfl, rfl⟩⟩
      obtain rfl : xs = [] := List.map_eq_nil_iff.mp hxs.symm
      exact ⟨rfl, h0, h1⟩
  | cons image images ih =>
      intro state0 state1 himages h0 h1
      have hhas : Has ⟨image, state0, state1⟩ n := ⟨himages image List.mem_cons_self, h0, h1⟩
      obtain ⟨q, hq, hstepped⟩ := hcall _ hhas
      have hnext := hstepped.has n hhas
      obtain ⟨images', state0', state1', hrun, hdone, hrest⟩ := ih q.state0 q.state1
        (fun image' h => himages image' (List.mem_cons_of_mem _ h)) hnext.state0 hnext.state1
      refine ⟨q.image :: images', state0', state1', ?_, fun i hi xs u1 u2 hxs hu1 hu2 => ?_,
        fun i hi => ?_⟩
      · unfold overTime
        rw [hq, Option.bind_eq_bind, Option.bind_some, hrun]
        rfl
      · cases xs with
        | nil => cases hxs
        | cons x xs =>
            obtain ⟨hx, hxs⟩ := List.cons.inj hxs
            have hcell : cell ⟨image, state0, state1⟩ i = (some x, some u1, some u2) :=
              congrArg₂ Prod.mk hx (congrArg₂ Prod.mk hu1 hu2)
            obtain ⟨hy, hstates⟩ := Prod.mk.inj (hstepped.pixels i (Nat.zero_le i) hi x u1 u2 hcell)
            obtain ⟨hy1, hy2⟩ := Prod.mk.inj hstates
            obtain ⟨hys, hend⟩ := hdone i hi xs _ _ hxs hy1 hy2
            exact ⟨congrArg₂ List.cons hy hys, hend⟩
      · obtain ⟨hsame, hstates⟩ := Prod.mk.inj (hstepped.others i (Or.inr hi))
        obtain ⟨hsame0, hsame1⟩ := Prod.mk.inj hstates
        obtain ⟨himages', hs0, hs1⟩ := hrest i hi
        exact ⟨congrArg₂ List.cons hsame himages', hs0.trans hsame0, hs1.trans hsame1⟩

/-- Both versions of `pdp_imageproc_bqt_process`: each pixel of a sequence of images is filtered
along time for itself, with the coefficients of its lane.  In `gccMmx` up to three last pixels are
left alone. -/
theorem bqt_filters_time (width height : Nat) :
    (∀ d : Portable.Bq, FiltersTime (Portable.pdpImageprocBqtProcess d width height)
      (fun _ => Portable.bqtPixel d) (u32 (width * height))) ∧
    ∀ d : GccMmx.Bq, FiltersTime (GccMmx.pdpImageprocBqtProcess d width height)
      (fun i => GccMmx.df2Pixel (d.coefs.lane (Fin.ofNat 4 i))) (4 * (u32 (width * height) / 4)) := by
  constructor
  · intro d
    refine filtersTime fun p hp => ?_
    have hrun := Stepped.rounds (Portable.bqtRound_stepped d) (u32 (width * height)) 0 p
    rw [Nat.zero_add, Nat.one_mul] at hrun
    exact hrun hp
  · intro d
    refine filtersTime fun p hp => ?_
    have hrun := Stepped.rounds (GccMmx.timeRound_stepped d.coefs) (u32 (width * height) / 4) 0 p
    rw [Nat.zero_add] at hrun
    exact hrun hp

end PureDataPacket
