-- SUMMARY: Streams of frames, each a fixed header that announces the length of the body after it.
import Mathlib.Data.List.Basic
import Mathlib.Tactic.Common

/-!
# Framing

A framing cuts a stream into frames: a header of fixed length, and a body as
long as the header announces. A stream is complete frames and an incomplete rest
in one way only, and the cut of a stream is found as the stream arrives, from
the rest alone.
-/

structure Framing (α : Type) where
  headerLen : Nat
  headerLen_pos : 0 < headerLen
  /-- The length of the body that a header announces. -/
  bodyLen : List α → Nat

namespace Framing

variable {α : Type} (F : Framing α)

/-- The length of the frame that `bs` starts with, as far as its header is there. -/
def frameLen (bs : List α) : Nat := F.headerLen + F.bodyLen (bs.take F.headerLen)

/-- A header with exactly the body it announces. -/
def IsFrame (f : List α) : Prop := f.length = F.frameLen f

/-- Too short for its header, or for the body the header announces. -/
def Incomplete (bs : List α) : Prop := bs.length < F.headerLen ∨ bs.length < F.frameLen bs

/-- The body of a frame. -/
def body (f : List α) : List α := f.drop F.headerLen

instance (f : List α) : Decidable (F.IsFrame f) := inferInstanceAs (Decidable (_ = _))

instance (bs : List α) : Decidable (F.Incomplete bs) := inferInstanceAs (Decidable (_ ∨ _))

/-- The frames of a stream, cut off one by one; `fuel` bounds their number. -/
def cut : Nat → List α → List (List α) × List α
  | 0, bs => ([], bs)
  | fuel + 1, bs =>
    if F.Incomplete bs then
      ([], bs)
    else
      let r := cut fuel (bs.drop (F.frameLen bs))
      (bs.take (F.frameLen bs) :: r.1, r.2)

/-- The complete frames of a stream, and the incomplete rest after them. -/
def split (bs : List α) : List (List α) × List α := F.cut bs.length bs

/-- The stream is these frames and then this incomplete rest. -/
structure Splits (bs : List α) (frames : List (List α)) (rest : List α) : Prop where
  eq : bs = frames.flatten ++ rest
  frames : ∀ f ∈ frames, F.IsFrame f
  rest : F.Incomplete rest

variable {F}

theorem IsFrame.headerLen_le {f : List α} (hf : F.IsFrame f) : F.headerLen ≤ f.length := by
  rw [hf, frameLen]
  omega

theorem IsFrame.length_pos {f : List α} (hf : F.IsFrame f) : 0 < f.length :=
  Nat.lt_of_lt_of_le F.headerLen_pos hf.headerLen_le

/-- What follows a frame does not change its length. -/
theorem frameLen_append {bs : List α} (h : F.headerLen ≤ bs.length) (tail : List α) :
    F.frameLen (bs ++ tail) = F.frameLen bs := by
  rw [frameLen, frameLen, List.take_append_of_le_length h]

theorem IsFrame.not_incomplete {f : List α} (hf : F.IsFrame f) (tail : List α) :
    ¬ F.Incomplete (f ++ tail) := by
  have hle := hf.headerLen_le
  have hlen := hf
  unfold IsFrame at hlen
  rw [Incomplete, frameLen_append hle, List.length_append]
  omega

theorem incomplete_nil : F.Incomplete [] := .inl F.headerLen_pos

/-! ## Cutting -/

theorem cut_of_splits {bs : List α} {frames : List (List α)} {rest : List α}
    (h : F.Splits bs frames rest) {fuel : Nat} (hfuel : frames.length ≤ fuel) :
    F.cut fuel bs = (frames, rest) := by
  induction frames generalizing bs fuel with
  | nil =>
    obtain rfl : bs = rest := h.eq
    cases fuel with
    | zero => rfl
    | succ fuel => simp only [cut, h.rest, if_true]
  | cons f frames ih =>
    have hf := h.frames f List.mem_cons_self
    have heq : bs = f ++ (frames.flatten ++ rest) := by
      rw [h.eq, List.flatten_cons, List.append_assoc]
    cases fuel with
    | zero => cases hfuel
    | succ fuel =>
      have hlen : F.frameLen bs = f.length := by rw [heq, frameLen_append hf.headerLen_le, ← hf]
      have hnot : ¬ F.Incomplete bs := by
        rw [heq]
        exact hf.not_incomplete _
      have htail : F.Splits (frames.flatten ++ rest) frames rest :=
        ⟨rfl, fun g hg => h.frames g (List.mem_cons_of_mem _ hg), h.rest⟩
      simp only [cut, hnot, if_false, hlen]
      rw [heq, List.take_left, List.drop_left, ih htail (Nat.le_of_succ_le_succ hfuel)]

theorem length_le_flatten {frames : List (List α)} (h : ∀ f ∈ frames, F.IsFrame f) :
    frames.length ≤ frames.flatten.length := by
  induction frames with
  | nil => exact Nat.le_refl _
  | cons f frames ih =>
    have hpos := (h f List.mem_cons_self).length_pos
    have htail := ih fun g hg => h g (List.mem_cons_of_mem _ hg)
    rw [List.flatten_cons, List.length_append, List.length_cons]
    omega

theorem Splits.length_le {bs : List α} {frames : List (List α)} {rest : List α}
    (h : F.Splits bs frames rest) : frames.length ≤ bs.length := by
  have hsum := length_le_flatten h.frames
  rw [h.eq, List.length_append]
  omega

/-- A stream is cut in exactly one way. -/
theorem Splits.split_eq {bs : List α} {frames : List (List α)} {rest : List α}
    (h : F.Splits bs frames rest) : F.split bs = (frames, rest) :=
  cut_of_splits h h.length_le

/-! ## Streams that grow -/

theorem splits_nil : F.Splits [] [] [] :=
  ⟨rfl, fun _ h => (List.not_mem_nil h).elim, incomplete_nil⟩

/-- More bytes of the frame that is still incomplete. -/
theorem Splits.extend {bs : List α} {frames : List (List α)} {rest more : List α}
    (h : F.Splits bs frames rest) (hmore : F.Incomplete (rest ++ more)) :
    F.Splits (bs ++ more) frames (rest ++ more) :=
  ⟨by rw [h.eq, List.append_assoc], h.frames, hmore⟩

/-- The last bytes of a frame. -/
theorem Splits.complete {bs : List α} {frames : List (List α)} {rest more : List α}
    (h : F.Splits bs frames rest) (hmore : F.IsFrame (rest ++ more)) :
    F.Splits (bs ++ more) (frames ++ [rest ++ more]) [] := by
  refine ⟨by simp [h.eq], fun f hf => ?_, incomplete_nil⟩
  rcases List.mem_append.mp hf with hf | hf
  · exact h.frames f hf
  · rw [List.mem_singleton.mp hf]
    exact hmore

/-! ## Streams that are cut short -/

/-- The number of the frames that lie completely before position `pos`. -/
def completeBefore : List (List α) → Nat → Nat
  | [], _ => 0
  | f :: frames, pos =>
    if f.length ≤ pos then completeBefore frames (pos - f.length) + 1 else 0

/-- Frame `i` lies before `pos` when it and the frames before it fit in `pos` elements. -/
theorem lt_completeBefore_iff {frames : List (List α)} {pos i : Nat} :
    i < completeBefore frames pos ↔
      i < frames.length ∧ (frames.take (i + 1)).flatten.length ≤ pos := by
  induction frames generalizing pos i with
  | nil => simp [completeBefore]
  | cons f frames ih =>
    rw [completeBefore, List.take_succ_cons, List.flatten_cons, List.length_append,
      List.length_cons]
    split
    · cases i with
      | zero => simp only [List.take_zero, List.flatten_nil, List.length_nil]; omega
      | succ i =>
        rw [Nat.add_lt_add_iff_right, ih, Nat.add_lt_add_iff_right]
        exact and_congr_right fun _ => by omega
    · omega

/-- A frame without its end. -/
theorem IsFrame.incomplete_take {f : List α} (hf : F.IsFrame f) {n : Nat} (hn : n < f.length) :
    F.Incomplete (f.take n) := by
  by_cases hlen : n < F.headerLen
  · left
    rw [List.length_take]
    omega
  · right
    have hle : F.headerLen ≤ (f.take n).length := by rw [List.length_take]; omega
    have hsame : F.frameLen (f.take n) = F.frameLen f := by
      conv_rhs => rw [← List.take_append_drop n f]
      exact (frameLen_append hle _).symm
    rw [hsame, ← hf, List.length_take]
    omega

/-- Cutting a stream of frames anywhere leaves the frames before the cut. -/
theorem splits_take {frames : List (List α)} (h : ∀ f ∈ frames, F.IsFrame f) (pos : Nat) :
    ∃ rest, F.Splits (frames.flatten.take pos) (frames.take (completeBefore frames pos)) rest := by
  induction frames generalizing pos with
  | nil => exact ⟨[], by simpa [completeBefore] using splits_nil⟩
  | cons f frames ih =>
    have hf := h f List.mem_cons_self
    rw [List.flatten_cons, List.take_append, completeBefore]
    split
    · rename_i hle
      obtain ⟨rest, heq, hframes, hrest⟩ :=
        ih (fun g hg => h g (List.mem_cons_of_mem _ hg)) (pos - f.length)
      refine ⟨rest, ?_, ?_, hrest⟩
      · rw [List.take_of_length_le hle, heq, List.take_succ_cons, List.flatten_cons,
          List.append_assoc]
      · intro g hg
        rw [List.take_succ_cons] at hg
        cases hg with
        | head => exact hf
        | tail _ hg => exact hframes g hg
    · rename_i hlt
      have hlt : pos < f.length := Nat.lt_of_not_le hlt
      refine ⟨f.take pos, ?_, fun _ hg => (List.not_mem_nil hg).elim, hf.incomplete_take hlt⟩
      rw [Nat.sub_eq_zero_of_le (Nat.le_of_lt hlt), List.take_zero, List.append_nil]
      rfl

/-- Frames at the start of a stream of frames are the first of them. -/
theorem prefix_of_flatten {fs gs : List (List α)} (hfs : ∀ f ∈ fs, F.IsFrame f)
    (hgs : ∀ g ∈ gs, F.IsFrame g) (h : fs.flatten <+: gs.flatten) : fs <+: gs := by
  have hsplits : F.Splits fs.flatten fs [] := ⟨(List.append_nil _).symm, hfs, incomplete_nil⟩
  obtain ⟨rest, hsplits'⟩ := splits_take hgs fs.flatten.length
  rw [← List.prefix_iff_eq_take.mp h] at hsplits'
  have heq : fs = gs.take (completeBefore gs fs.flatten.length) :=
    congrArg Prod.fst (hsplits.split_eq.symm.trans hsplits'.split_eq)
  rw [heq]
  exact List.take_prefix ..

end Framing
