-- SUMMARY: Writers that take turns on one stream, each with one frame, of which the stream may accept only a part.
import MBotTeleop.Lib.Framing

/-!
# Turns

Several writers share a stream. In its turn a writer hands over one packet, and
the stream accepts some prefix of it. A reader of the stream wants whole packets
in the order of the turns, and wants those of certain writers without fail. For
self-delimiting packets this comes down to what the stream accepted in each turn.
-/

structure Turn (ω α : Type) where
  writer : ω
  packet : List α
  /-- How much of the packet was accepted. -/
  accepted : Nat
  deriving DecidableEq, Repr

namespace Turn

variable {ω α : Type}

/-- All of the packet was accepted. -/
def Whole (t : Turn ω α) : Prop := t.accepted = t.packet.length

/-- Either all of the packet was accepted, or nothing of it. -/
def Untorn (t : Turn ω α) : Prop := t.accepted = 0 ∨ t.Whole

instance (t : Turn ω α) : Decidable t.Whole := inferInstanceAs (Decidable (_ = _))

instance (t : Turn ω α) : Decidable t.Untorn := inferInstanceAs (Decidable (_ ∨ _))

/-- What the stream holds after the turns. -/
def stream (turns : List (Turn ω α)) : List α := (turns.map fun t => t.packet.take t.accepted).flatten

/-- `line` is whole packets of some of the turns, in their order, with exactly
one of each writer of whom one is required. -/
def Intact [DecidableEq ω] (required : ω → Prop) (turns : List (Turn ω α)) (line : List α) : Prop :=
  ∃ kept : List (Turn ω α), kept.Sublist turns ∧ line = (kept.map packet).flatten ∧
    ∀ w, required w → kept.countP (fun t => t.writer = w) = 1

@[simp] theorem stream_concat (turns : List (Turn ω α)) (t : Turn ω α) :
    stream (turns ++ [t]) = stream turns ++ t.packet.take t.accepted := by
  simp [stream]

/-- Without torn packets the stream is the packets that were accepted. -/
theorem stream_of_untorn {turns : List (Turn ω α)} (h : ∀ t ∈ turns, t.Untorn) :
    stream turns = ((turns.filter fun t => t.Whole).map packet).flatten := by
  induction turns with
  | nil => rfl
  | cons t turns ih =>
    have htail := ih fun t' ht' => h t' (List.mem_cons_of_mem _ ht')
    rw [stream, List.map_cons, List.flatten_cons, List.filter_cons]
    split
    · rename_i hwhole
      have hall : t.packet.take t.accepted = t.packet :=
        List.take_of_length_le (Nat.le_of_eq (of_decide_eq_true hwhole).symm)
      rw [hall, List.map_cons, List.flatten_cons]
      exact congrArg _ htail
    · rename_i hnot
      have hnone : t.accepted = 0 := (h t List.mem_cons_self).resolve_right fun hwhole =>
        hnot (decide_eq_true hwhole)
      rw [hnone, List.take_zero, List.nil_append]
      exact htail

variable [DecidableEq ω] {required : ω → Prop} {turns : List (Turn ω α)}

/-- Where no packet is torn, and the one turn of each required writer was
accepted, the stream is intact. -/
theorem intact_of_untorn (huntorn : ∀ t ∈ turns, t.Untorn)
    (hwhole : ∀ t ∈ turns, required t.writer → t.Whole)
    (hone : ∀ w, required w → turns.countP (fun t => t.writer = w) = 1) :
    Intact required turns (stream turns) := by
  refine ⟨turns.filter fun t => t.Whole, List.filter_sublist, stream_of_untorn huntorn, ?_⟩
  intro w hw
  rw [← hone w hw, List.countP_filter]
  apply List.countP_congr
  intro t ht
  simp only [Bool.and_eq_true, decide_eq_true_eq]
  exact ⟨And.left, fun hwriter => ⟨hwriter, hwhole t ht (hwriter ▸ hw)⟩⟩

-- ---------------------------------------------------------------------------
-- Self-delimiting packets
-- ---------------------------------------------------------------------------

variable {F : Framing α}

omit [DecidableEq ω] in
theorem isFrame_of_sublist {kept : List (Turn ω α)} (hsub : kept.Sublist turns)
    (hframes : ∀ t ∈ turns, F.IsFrame t.packet) : ∀ f ∈ kept.map packet, F.IsFrame f := by
  intro f hf
  obtain ⟨t, ht, rfl⟩ := List.mem_map.mp hf
  exact hframes t (hsub.subset ht)

/-- The last turn did not tear its packet, when the stream is intact and no turn
before it tore one: a stream cannot be whole frames and have a rest as well. -/
theorem untorn_of_intact {t : Turn ω α} (hframes : ∀ t' ∈ turns ++ [t], F.IsFrame t'.packet)
    (hle : t.accepted ≤ t.packet.length) (huntorn : ∀ t' ∈ turns, t'.Untorn)
    (hintact : Intact required (turns ++ [t]) (stream (turns ++ [t]))) : t.Untorn := by
  obtain ⟨kept, hsub, hstream, -⟩ := hintact
  rw [stream_concat, stream_of_untorn huntorn] at hstream
  by_contra hnot
  have hlt : t.accepted < t.packet.length :=
    Nat.lt_of_le_of_ne hle fun hwhole => hnot (.inr hwhole)
  have hrest : F.Incomplete (t.packet.take t.accepted) :=
    (hframes t (List.mem_append_right _ List.mem_cons_self)).incomplete_take hlt
  have hsub' : (turns.filter fun t => t.Whole).Sublist (turns ++ [t]) :=
    List.filter_sublist.trans (List.sublist_append_left ..)
  have hcut : F.split (kept.map packet).flatten =
      ((turns.filter fun t => t.Whole).map packet, t.packet.take t.accepted) :=
    Framing.Splits.split_eq ⟨hstream.symm, isFrame_of_sublist hsub' hframes, hrest⟩
  have hcut' : F.split (kept.map packet).flatten = (kept.map packet, []) :=
    Framing.Splits.split_eq
      ⟨(List.append_nil _).symm, isFrame_of_sublist hsub hframes, Framing.incomplete_nil⟩
  have hempty := congrArg (fun r => r.2.length) (hcut.symm.trans hcut')
  simp only [List.length_take, List.length_nil] at hempty
  exact hnot (.inl (by omega))

/-- A selection that keeps the turns of the required writers. -/
theorem filter_eq_of_sublist [DecidablePred required] {kept : List (Turn ω α)}
    (hsub : kept.Sublist turns)
    (hcount : ∀ w, required w →
      kept.countP (fun t => t.writer = w) = turns.countP (fun t => t.writer = w)) :
    kept.filter (fun t => required t.writer) = turns.filter (fun t => required t.writer) := by
  induction hsub with
  | slnil => rfl
  | @cons kept turns t hsub ih =>
    have hnot : ¬ required t.writer := fun hreq => by
      have hkept := hcount _ hreq
      have hle := hsub.countP_le (p := fun t' => t'.writer = t.writer)
      rw [List.countP_cons_of_pos (by simp)] at hkept
      omega
    rw [List.filter_cons_of_neg (by simpa using hnot)]
    apply ih
    intro w hw
    have hne : t.writer ≠ w := fun heq => hnot (heq ▸ hw)
    rw [hcount w hw, List.countP_cons_of_neg (by simpa using hne)]
  | @cons_cons kept turns t hsub ih =>
    have htail := ih fun w hw => by
      simpa only [List.countP_cons, Nat.add_right_cancel_iff] using hcount w hw
    rw [List.filter_cons, List.filter_cons, htail]

/-- In an intact stream without torn packets the required writers got their
packets through, if these can be told from the packets of the others. -/
theorem whole_of_intact [DecidablePred required] (marked : List α → Bool)
    (hframes : ∀ t ∈ turns, F.IsFrame t.packet) (huntorn : ∀ t ∈ turns, t.Untorn)
    (hmarked : ∀ t ∈ turns, marked t.packet = decide (required t.writer))
    (hone : ∀ w, required w → turns.countP (fun t => t.writer = w) = 1)
    (hintact : Intact required turns (stream turns)) : ∀ t ∈ turns, required t.writer → t.Whole := by
  obtain ⟨kept, hsub, hstream, hkept⟩ := hintact
  rw [stream_of_untorn huntorn] at hstream
  have hwhole : (turns.filter fun t => t.Whole).Sublist turns := List.filter_sublist
  have hpackets : kept.map packet = (turns.filter fun t => t.Whole).map packet := by
    have hcut := Framing.Splits.split_eq (F := F)
      ⟨(List.append_nil _).symm, isFrame_of_sublist hsub hframes, Framing.incomplete_nil⟩
    have hcut' := Framing.Splits.split_eq (F := F)
      ⟨(List.append_nil _).symm, isFrame_of_sublist hwhole hframes, Framing.incomplete_nil⟩
    exact congrArg Prod.fst (hcut.symm.trans ((congrArg F.split hstream.symm).trans hcut'))
  have hselect {sel : List (Turn ω α)} (hsel : sel.Sublist turns) :
      (sel.map packet).filter marked = (sel.filter fun t => required t.writer).map packet := by
    rw [List.filter_map]
    exact congrArg _ (List.filter_congr fun t ht => hmarked t (hsel.subset ht))
  have hlength : ((turns.filter fun t => t.Whole).filter fun t => required t.writer).length =
      (turns.filter fun t => required t.writer).length := by
    have hall := filter_eq_of_sublist hsub fun w hw => (hkept w hw).trans (hone w hw).symm
    rw [← hall, ← List.length_map packet, ← List.length_map packet, ← hselect hwhole,
      ← hselect hsub, hpackets]
  intro t ht hreq
  have heq := (hwhole.filter fun t => required t.writer).eq_of_length hlength
  have hmem : t ∈ turns.filter fun t => required t.writer :=
    List.mem_filter.mpr ⟨ht, decide_eq_true hreq⟩
  rw [← heq] at hmem
  exact of_decide_eq_true (List.mem_filter.mp (List.mem_filter.mp hmem).1).2

end Turn
