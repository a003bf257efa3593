/-
# `PureDataPacket.Type.RoundTrip` — conversions and back

A conversion followed by its inverse, each on any pool in which its source is in use.
What is between the two runs does not matter: the second one starts from a packet that the
first one may have returned.

Both make a packet and fill it by a list of steps, so the question is about the two lists,
whatever the new packets had in them.

| | |
| :-- | :-- |
| `Converts` | some run on `p` returns `q` |
| `RoundTrip` | what goes there and back is as it was, and nothing else is touched |
| `Converts.filled` | what a method returns that makes a packet and fills it |
| `roundTrip_iff` | what there is to show about the steps of two methods |
-/
import PureDataPacket.Type.Bounds

namespace PureDataPacket

open Pool

/-! ## Runs that return a packet -/

/-- Some run on `p` returns `q`. -/
def Converts (code : Int → PoolProg Int) (p q : Packet) : Prop :=
  ∃ s h r t, Held s h p ∧ (code h).run s = .ok (r, t) ∧ Held t r q

/-- What goes there and back is as it was, and nothing else is touched. -/
structure RoundTrip (code code' : Int → PoolProg Int) (k : PacketKind) (w h d : Nat)
    (p : Packet) : Prop where
  there : InBounds code p
  back : ∀ q, Converts code p q → InBounds code' q
  same : ∀ q q', Converts code p q → Converts code' q q' →
    Built k w h d q' ∧ q'.data.bytes = p.data.bytes

section Converts

variable {make : PoolProg Int} {t n : Nat} {m : Meta} {p q : Packet} {l : List Step}

theorem Converts.filled {work : Option (List Step)} (hc : Constructs make t n m) (hn : n < 2 ^ 32)
    (h : Converts (fun packet => convertInto packet make work) p q) :
    Fitting n ∧ q.toMeta = m ∧ q.users = 1 ∧ q.data.size = n ∧
      ∃ l dst, work = some l ∧ dst.length = n ∧
        runSteps p.data.bytes l dst = some q.data.bytes := by
  obtain ⟨s, x, r, u, hp, hrun, hq⟩ := h
  have hcode : (convertInto x make work).run s =
      (makeAndFill make (some ()) (fun _ => work) x).run s := rfl
  replace hrun := hcode.symm.trans hrun
  rcases hc.run_cases hn s with ⟨e, hmake, _⟩ | ⟨s₁, hmake⟩ |
    ⟨hfit, r', s₁, data, hmake, hr', hsize, hheld⟩
  · cases hrun.symm.trans (run_makeAndFill_error hmake)
  · cases hrun.symm.trans (run_makeAndFill hmake)
    have hnone := hq.header
    rw [header_neg_one] at hnone
    cases hnone
  · have hmade : Made x p n r' data s₁ := ⟨hheld x p hp, ⟨m, hr'⟩, hsize⟩
    rw [run_makeAndFill hmake, checked, run_fillNew_made hmade] at hrun
    cases work with
    | none => cases hrun
    | some l =>
        by_cases hl : Fits l p.data.size n
        · obtain ⟨bytes, hsteps⟩ := runSteps_isSome_iff.mpr
            (show Fits l p.data.size data.size by rwa [hsize])
          obtain ⟨u', data', hfill, hheader, hbytes⟩ :=
            run_fill_header hmade.source.header hr' hsteps
          rw [hfill] at hrun
          cases hrun
          cases hq.header.symm.trans hheader
          refine ⟨hfit, rfl, rfl, ?_, l, data.bytes, rfl, hsize, hbytes ▸ hsteps⟩
          show data'.bytes.length = n
          rw [hbytes, length_runSteps hsteps]
          exact hsize
        · rw [run_fill_error hmade hl] at hrun
          cases hrun

/-- It may find anything in the memory that it gets. -/
theorem Converts.of_filled (hc : Constructs make t n m) (hfit : Fitting n) (hu : 0 < p.users)
    (hl : Fits l p.data.size n) (dst : List UInt8) (hdst : dst.length = n) :
    ∃ q, Converts (fun packet => convertInto packet make (some l)) p q ∧
      runSteps p.data.bytes l dst = some q.data.bytes := by
  have hlt : dst.length + pdpHeaderSize < 2 ^ 31 := hdst.symm ▸ hfit
  have hold : DataArea.size ⟨dst, hlt⟩ = n := hdst
  obtain ⟨s₁, hmake, hr, hp⟩ := run_recycled hc hu hfit hold
  have hmade : Made 0 p n 1 ⟨dst, hlt⟩ s₁ := ⟨⟨hp, hu⟩, ⟨m, hr⟩, hdst⟩
  obtain ⟨bytes, hsteps⟩ := runSteps_isSome_iff.mpr (show Fits l p.data.size dst.length by
    rwa [hdst])
  obtain ⟨u, data', hfill, hheader, hbytes⟩ := run_fill_header hp hr hsteps
  have hrun : (convertInto 0 make (some l)).run (recycling p ⟨dst, hlt⟩) = .ok (1, u) := by
    rw [convertInto_eq, run_makeAndFill hmake, checked, run_fillNew_made hmade, hfill]
  refine ⟨_, ⟨_, 0, 1, u, held_recycling hu _, hrun, hheader, Nat.one_pos⟩, ?_⟩
  rw [hsteps, hbytes]

/-- The runs of a method are those of another one. -/
theorem converts_congr {code code' : Int → PoolProg Int}
    (h : ∀ s x, Held s x p → (code x).run s = (code' x).run s) :
    Converts code p q ↔ Converts code' p q := by
  unfold Converts
  refine exists_congr fun s => exists_congr fun x => exists_congr fun r => exists_congr fun u => ?_
  exact and_congr_right fun hp => by rw [h s x hp]

theorem Converts.built {work : Option (List Step)} {k : PacketKind} {w h d : Nat} (hw : w < 2 ^ 32)
    (hh : h < 2 ^ 32) (hd : d < 2 ^ 32)
    (hconv : Converts (fun packet => convertInto packet (k.new w h d) work) p q) :
    Built k w h d q ∧ 0 < q.users ∧ ∃ l dst, work = some l ∧ dst.length = k.dataSize w h d ∧
      runSteps p.data.bytes l dst = some q.data.bytes := by
  obtain ⟨_, hmeta, husers, hsize, hrun⟩ :=
    hconv.filled (k.constructs w h d) (k.dataSize_lt w h d)
  have hq : q = ⟨k.header w h d, 1, q.data⟩ := by rw [← hmeta, ← husers]
  refine ⟨?_, husers ▸ Nat.one_pos, hrun⟩
  rw [hq]
  exact built_header hw hh hd hsize

/-- Two methods that make packets of two kinds: what there is to show about their steps. -/
theorem roundTrip_iff {code code' : Int → PoolProg Int} {k k' : PacketKind} {w h d d' : Nat}
    {work work' : Option (List Step)} (hp : Built k w h d p) (hu : 0 < p.users) (hd' : d' < 2 ^ 32)
    (hcode : ∀ s x, Held s x p →
      (code x).run s = (convertInto x (k'.new w h d') work).run s)
    (hcode' : ∀ q, Built k' w h d' q → ∀ s x, Held s x q →
      (code' x).run s = (convertInto x (k.new w h d) work').run s) :
    RoundTrip code code' k w h d p ↔ SafeFor (k'.dataSize w h d') (∃ l l', work = some l ∧
      Fits l p.data.size (k'.dataSize w h d') ∧ work' = some l' ∧
      Fits l' (k'.dataSize w h d') p.data.size ∧ ∀ dst dst' mid out : List UInt8,
        dst.length = k'.dataSize w h d' → dst'.length = p.data.size →
        runSteps p.data.bytes l dst = some mid → runSteps mid l' dst' = some out →
          out = p.data.bytes) := by
  have hsize : k.dataSize w h d = p.data.size := hp.size.symm
  have hfit : Fitting (k.dataSize w h d) := by
    rw [hsize]
    exact p.data.size_lt
  have hbuilt : ∀ q, Converts code p q → Built k' w h d' q ∧ 0 < q.users ∧ ∃ l dst,
      work = some l ∧ dst.length = k'.dataSize w h d' ∧
        runSteps p.data.bytes l dst = some q.data.bytes :=
    fun q hq => ((converts_congr hcode).mp hq).built hp.width_lt hp.height_lt hd'
  constructor
  · intro hrt
    refine ((inBounds_kind hu k' hcode).mp hrt.there).imp_right ?_
    rintro ⟨hfit', l, rfl, hl⟩
    -- any contents of the new packets can occur
    have hto : ∀ dst mid : List UInt8, dst.length = k'.dataSize w h d' →
        runSteps p.data.bytes l dst = some mid → ∃ q, Converts code p q ∧ q.data.bytes = mid := by
      intro dst mid hdst hmid
      obtain ⟨q, hq, hrun⟩ := Converts.of_filled (k'.constructs w h d') hfit' hu hl dst hdst
      exact ⟨q, (converts_congr hcode).mpr hq, Option.some.inj (hrun.symm.trans hmid)⟩
    have hback : ∀ q, Converts code p q → ∃ l', work' = some l' ∧
        Fits l' (k'.dataSize w h d') p.data.size := by
      intro q hq
      obtain ⟨hq', husers, _⟩ := hbuilt q hq
      rcases (inBounds_kind husers k (hcode' q hq')).mp (hrt.back q hq) with hr | ⟨_, l', hl', hf⟩
      · exact absurd hfit (not_fitting_of_refused hr)
      · rw [hq'.size, hsize] at hf
        exact ⟨l', hl', hf⟩
    obtain ⟨mid, hmid⟩ := runSteps_isSome_iff.mpr (show Fits l p.data.bytes.length
      (List.replicate (k'.dataSize w h d') (0 : UInt8)).length by rwa [List.length_replicate])
    obtain ⟨q, hq, _⟩ := hto _ mid List.length_replicate hmid
    obtain ⟨l', hl', hf'⟩ := hback q hq
    refine ⟨hfit', l, l', rfl, hl, hl', hf', fun dst dst' mid out hdst hdst' hmid hout => ?_⟩
    obtain ⟨q, hq, rfl⟩ := hto dst mid hdst hmid
    obtain ⟨hq', husers, _⟩ := hbuilt q hq
    obtain ⟨q', hconv, hrun⟩ := Converts.of_filled (k.constructs w h d) hfit husers (l := l')
      (by rw [hq'.size, hsize]; exact hf') dst' (hdst'.trans hsize.symm)
    subst hl'
    rw [← (hrt.same q q' hq ((converts_congr (hcode' q hq')).mpr hconv)).2]
    exact Option.some.inj (hout.symm.trans hrun)
  · intro hsafe
    have hsteps : ∀ q, Converts code p q → ∃ l l', work = some l ∧ work' = some l' ∧
        Fits l' (k'.dataSize w h d') p.data.size ∧ ∀ dst dst' mid out : List UInt8,
          dst.length = k'.dataSize w h d' → dst'.length = p.data.size →
          runSteps p.data.bytes l dst = some mid → runSteps mid l' dst' = some out →
            out = p.data.bytes := by
      intro q hq
      have hfit' : Fitting (k'.dataSize w h d') := (Converts.filled (k'.constructs w h d')
        (k'.dataSize_lt w h d') ((converts_congr hcode).mp hq)).1
      obtain ⟨_, l, l', hl, _, hl', hf', hsame⟩ :=
        hsafe.resolve_left fun hr => not_fitting_of_refused hr hfit'
      exact ⟨l, l', hl, hl', hf', hsame⟩
    refine ⟨(inBounds_kind hu k' hcode).mpr (hsafe.imp_right ?_), fun q hq => ?_,
      fun q q' hq hq' => ?_⟩
    · rintro ⟨hfit', l, _, hl, hf, _⟩
      exact ⟨hfit', l, hl, hf⟩
    · obtain ⟨hq', husers, _⟩ := hbuilt q hq
      obtain ⟨_, l', _, hl', hf', _⟩ := hsteps q hq
      refine (inBounds_kind husers k (hcode' q hq')).mpr (Or.inr ⟨hfit, l', hl', ?_⟩)
      rw [hq'.size, hsize]
      exact hf'
    · obtain ⟨hbuilt₁, _, l₁, dst, hl₁, hdst, hrun⟩ := hbuilt q hq
      obtain ⟨hbuilt₂, _, l₂, dst', hl₂, hdst', hrun'⟩ :=
        ((converts_congr (hcode' q hbuilt₁)).mp hq').built hp.width_lt hp.height_lt hp.depth_lt
      obtain ⟨l, l', hl, hl', _, hsame⟩ := hsteps q hq
      cases hl.symm.trans hl₁
      cases hl'.symm.trans hl₂
      exact ⟨hbuilt₂, hsame dst dst' _ _ hdst (hdst'.trans hsize) hrun hrun'⟩

end Converts

end PureDataPacket
