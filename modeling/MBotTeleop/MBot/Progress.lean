-- SUMMARY: A call of drive can always be brought to its end, and how many steps that takes.
import MBotTeleop.MBot.Commands

/-!
# Progress on the serial line

Whoever holds the mutex can write and release it, whatever the device does. So a
call of `drive` is at most five steps away from its return: two of the section that
is going on, and three of its own.
-/

namespace MBot

open Rix.Ipc

/-- The steps to the end of the section that is going on. -/
def sectionRank (s : State) : Nat :=
  match s.mtx with
  | none => 0
  | some ⟨_, _, none⟩ => 2
  | some ⟨_, _, some _⟩ => 1

/-- The steps of the last call before its section and in it. -/
def phaseRank : Option Phase → Nat
  | some (.lock _) => 3
  | some .locked | some .returned | none => 0

def lineRank (s : State) : Nat := phaseRank (s.phase (s.calls.length - 1)) + sectionRank s

theorem lineRank_le (s : State) : lineRank s ≤ 5 := by
  unfold lineRank phaseRank sectionRank
  split <;> split <;> decide

/-- A step that a thread can make without the device. -/
def Event.Unhindered : Event → Prop
  | .lock _ | .unlock => True
  | .write r => r = .failed .other
  | .drive _ _ | .timesync _ _ | .stop => False

variable {s : State}

/-- A call between `lock` and `unlock` has the mutex. -/
theorem Threads.holds (hs : Threads s) {j : Nat} (hphase : s.phase j = some .locked) :
    ∃ sec, s.mtx = some sec ∧ sec.writer = .drive j := by
  have hcount := hs.count j
  rw [hphase] at hcount
  obtain ⟨t, ht, hwriter⟩ := List.countP_pos_iff.mp (Nat.lt_of_lt_of_eq Nat.one_pos hcount.symm)
  have hwriter : t.writer = .drive j := of_decide_eq_true hwriter
  rcases List.mem_append.mp ht with ht | ht
  · cases hphase.symm.trans (hs.past ht hwriter)
  · obtain ⟨sec, hsec, rfl⟩ := Option.map_eq_some_iff.mp (Option.mem_toList.mp ht)
    exact ⟨sec, hsec, hwriter⟩

/-- The call that is in progress is the last one. -/
theorem InOrder.last (ho : InOrder s) (hnot : ¬ s.Idle) :
    ∃ phase, s.phase (s.calls.length - 1) = some phase ∧ phase ≠ .returned := by
  rw [idle_iff] at hnot
  push Not at hnot
  obtain ⟨j, phase, hphase, hne⟩ := hnot
  have hlt : j < s.calls.length := phase_isSome_iff.mp (by rw [hphase]; rfl)
  have hlast : ¬ j + 1 < s.calls.length := by
    intro hlt'
    cases (ho.returned j hlt').symm.trans hphase
    exact hne rfl
  obtain rfl : j = s.calls.length - 1 := by omega
  exact ⟨phase, hphase, hne⟩

/-- As long as a call is in progress, some step brings it nearer to its end. -/
theorem exists_step_of_not_idle (hs : Threads s) (ho : InOrder s) (hnot : ¬ s.Idle) :
    ∃ e s', e.Unhindered ∧ step s e = some s' ∧ lineRank s' < lineRank s := by
  cases hmtx : s.mtx with
  | none =>
    obtain ⟨phase, hphase, hne⟩ := ho.last hnot
    cases phase with
    | returned => exact (hne rfl).elim
    | locked =>
      obtain ⟨sec, hsec, -⟩ := hs.holds hphase
      cases hmtx.symm.trans hsec
    | lock bytes =>
      let w : Writer := .drive (s.calls.length - 1)
      have hwaiting : s.waiting w = some bytes := waiting_drive.mpr hphase
      have hstep : step s (.lock w) = some { s.locked w with mtx := some ⟨w, bytes, none⟩ } := by
        simp only [step, hmtx, hwaiting]
      have hlocked : (s.locked w).phase (s.calls.length - 1) = some .locked := by
        rw [phase_locked, if_pos rfl, hphase]
        rfl
      refine ⟨.lock w, _, trivial, hstep, ?_⟩
      simp only [lineRank, length_calls_locked, sectionRank, hmtx, hphase]
      change phaseRank ((s.locked w).phase _) + 2 < _
      rw [hlocked]
      exact Nat.lt_succ_self 2
  | some sec =>
    obtain ⟨w, packet, result⟩ := sec
    cases result with
    | none =>
      have hpossible : (WriteResult.failed .other).Possible packet.length := trivial
      have hstep : step s (.write (.failed .other)) = some { s with
          mtx := some ⟨w, packet, some (.failed .other)⟩
          accepted := s.accepted ++ packet.take (WriteResult.failed .other).accepted } := by
        simp only [step, hmtx, if_pos hpossible]
      refine ⟨.write (.failed .other), _, rfl, hstep, ?_⟩
      simp only [lineRank, sectionRank, hmtx]
      exact Nat.lt_succ_self _
    | some r =>
      have hstep : step s .unlock = some { s.unlocked r w with
          mtx := none, past := s.past ++ [Section.turn ⟨w, packet, some r⟩] } := by
        simp only [step, hmtx]
      refine ⟨.unlock, _, trivial, hstep, ?_⟩
      simp only [lineRank, sectionRank, hmtx, length_calls_unlocked]
      change phaseRank ((s.unlocked r w).phase _) + 0 < _
      rw [phase_unlocked]
      split
      · cases s.phase (s.calls.length - 1) with
        | none => exact Nat.succ_pos _
        | some phase => exact Nat.succ_pos _
      · exact Nat.lt_succ_self _

end MBot
