-- SUMMARY: The descriptors of File, Pipe and Fifo objects: who holds which, and that each is closed exactly once.
import MBotTeleop.Ipc.Objects
import MBotTeleop.Lib.Custody

/-!
# Descriptors in custody

A process with its objects is a custody of descriptors, in which `-1` is the
descriptor of an invalid object and `0` may be given up without a close. Every
member function is a number of steps of that custody.
-/

namespace Rix.Ipc.Objects

open Relation (ReflTransGen)

/-- What the objects hold. -/
def State.held (s : State) (id : Nat) : Option Int := (s.live id).map Object.fd

def Process.custody (p : Process) (held : Nat → Option Int) : Custody Nat Int OpenFile where
  table := p.kernel.fds
  ledger := p.ledger
  held := held

def State.custody (s : State) : Custody Nat Int OpenFile := s.process.custody s.held

/-- What a call does: steps of the custody, from a kernel to a kernel. -/
structure Does (adopting : Prop) (p : Process) (held : Nat → Option Int) (p' : Process)
    (held' : Nat → Option Int) : Prop where
  steps : Custody.Steps (-1) (· = 0) adopting (p.custody held) (p'.custody held')
  wf : p.kernel.WF → p'.kernel.WF

variable {adopting : Prop} {p p' p'' : Process} {held held' held'' : Nat → Option Int} {a b : Nat}

theorem Does.refl (p : Process) (held : Nat → Option Int) : Does adopting p held p held :=
  ⟨.refl, id⟩

theorem Does.trans (h : Does adopting p held p' held') (h' : Does adopting p' held' p'' held'') :
    Does adopting p held p'' held'' :=
  ⟨h.steps.trans h'.steps, h'.wf ∘ h.wf⟩

theorem Does.step (h : Custody.Step (-1) (· = 0) adopting (p.custody held) (p.custody held')) :
    Does adopting p held p held' :=
  ⟨.single h, id⟩

-- ---------------------------------------------------------------------------
-- Calls
-- ---------------------------------------------------------------------------

theorem does_make (h : held a = none) :
    Does adopting p held p (Function.update held a (some (-1))) :=
  .step (.make a h)

/-- What an object was given is replaced. -/
theorem Does.replace {x y : Option Int} (h : Does adopting p held p' (Function.update held a x))
    (h' : Does adopting p' (Function.update held a x) p''
      (Function.update (Function.update held a x) a y)) :
    Does adopting p held p'' (Function.update held a y) := by
  rw [Function.update_idem] at h'
  exact h.trans h'

/-- A new object, which is then given something. -/
theorem does_new {fd : Int} (hnew : held a = none)
    (h : Does adopting p (Function.update held a (some (-1))) p'
      (Function.update (Function.update held a (some (-1))) a (some fd))) :
    Does adopting p held p' (Function.update held a (some fd)) :=
  (does_make hnew).replace h

/-- Two objects exchange what they hold. -/
theorem does_exchange {x y : Int} (ha : held a = some x) (hb : held b = some y) :
    Does adopting p held p (Function.update (Function.update held a (some y)) b (some x)) := by
  have hswap : held ∘ Equiv.swap b a =
      Function.update (Function.update held a (some y)) b (some x) := by
    rw [Equiv.comp_swap_eq_update, ha, hb]
  rw [← hswap]
  exact .step (.swap b a (by simp [Process.custody, hb]) (by simp [Process.custody, ha]))

/-- An object is given what another one holds, which is given `x`. -/
theorem Does.exchange {x y : Int} (h : Does adopting p held p' (Function.update held a (some x)))
    (hne : b ≠ a) (hb : held b = some y) :
    Does adopting p held p' (Function.update (Function.update held a (some y)) b (some x)) := by
  have hswap : Does adopting p' (Function.update held a (some x)) p'
      (Function.update (Function.update (Function.update held a (some x)) a (some y)) b (some x)) :=
    does_exchange (Function.update_self ..) ((Function.update_of_ne hne ..).trans hb)
  rw [Function.update_idem] at hswap
  exact h.trans hswap

theorem does_closeFd {fd : Int} (h : held a = some fd) :
    Does adopting p held (closeFd p fd).1 (Function.update held a (some (closeFd p fd).2)) := by
  by_cases hpos : 0 < fd
  · have hfd : fd ≠ -1 := by omega
    simp only [closeFd, hpos, if_true]
    exact ⟨.single (.close a fd h hfd), fun hwf => hwf.close fd⟩
  · simp only [closeFd, hpos, if_false]
    rw [← h, Function.update_eq_self]
    exact .refl p held

/-- What `closeFd` leaves is nothing, or descriptor `0`. -/
theorem closeFd_snd {fd : Int} (h : fd = -1 ∨ 0 ≤ fd) :
    (closeFd p fd).2 = -1 ∨ (closeFd p fd).2 = 0 := by
  unfold closeFd
  split
  · exact .inl rfl
  · change fd = -1 ∨ fd = 0
    omega

/-- An object gives its descriptor up. -/
theorem does_giveUp {fd : Int} (h : held a = some fd) (hfd : fd = -1 ∨ 0 ≤ fd) :
    Does adopting p held (closeFd p fd).1 (Function.update held a (some (-1))) := by
  have hclose : Does adopting p held (closeFd p fd).1
      (Function.update held a (some (closeFd p fd).2)) := does_closeFd h
  rcases closeFd_snd (p := p) hfd with hnil | hzero
  · rwa [hnil] at hclose
  · exact hclose.replace (.step (.forget a _ hzero (Function.update_self ..)))

/-- An invalid object is given a descriptor that was just opened. -/
theorem does_open {fd : Int} {f : OpenFile} (h : held a = some (-1))
    (havail : p.kernel.Available fd) (hfds : p'.kernel.fds = Function.update p.kernel.fds fd (some f))
    (hledger : p'.ledger = p.ledger.issue fd) (hwf : p.kernel.WF → p'.kernel.WF) :
    Does adopting p held p' (Function.update held a (some fd)) := by
  have hvalid : fd ≠ -1 := by
    have hrange := havail.1
    omega
  have hcustody : p'.custody (Function.update held a (some fd)) =
      { table := Function.update p.kernel.fds fd (some f)
        ledger := p.ledger.issue fd
        held := Function.update held a (some fd) } := by
    rw [Process.custody, hfds, hledger]
  refine ⟨.single ?_, hwf⟩
  rw [hcustody]
  exact .acquire a fd f h havail.2.2 hvalid

/-- What `::dup` does, where it is called. -/
inductive Dup (p : Process) (src : Int) : Option Int → Process → Int → Prop
  | invalid (dup : Option Int) (h : src < 0) : Dup p src dup p (-1)
  | failed (h : 0 ≤ src) : Dup p src none p (-1)
  | done (h : 0 ≤ src) (fd : Int) (f : OpenFile) (hsrc : p.kernel.fds src = some f)
    (havail : p.kernel.Available fd) :
    Dup p src (some fd) { p with
      kernel := p.kernel.dup src fd
      ledger := p.ledger.issue fd } fd

theorem dupFd_cases {src fd : Int} {dup : Option Int} (h : dupFd p src dup = some (p', fd)) :
    Dup p src dup p' fd := by
  unfold dupFd at h
  split at h
  · rename_i hsrc
    cases dup with
    | none =>
      cases h
      exact .failed hsrc
    | some fd' =>
      simp only [Process.dup] at h
      split at h
      · rename_i hdup
        cases h
        obtain ⟨f, hf⟩ := Option.isSome_iff_exists.mp hdup.1
        exact .done hsrc fd f hf hdup.2
      · cases h
  · cases h
    exact .invalid dup (by omega)

theorem does_dupFd {src fd : Int} {dup : Option Int} (h : held a = some (-1))
    (hdup : dupFd p src dup = some (p', fd)) :
    Does adopting p held p' (Function.update held a (some fd)) := by
  cases dupFd_cases hdup with
  | invalid | failed =>
    rw [← h, Function.update_eq_self]
    exact .refl p held
  | done _ _ f hsrc havail =>
    have hfds : (p.kernel.dup src fd).fds = Function.update p.kernel.fds fd (some f) := by
      rw [Kernel.dup, hsrc]
    exact does_open h havail hfds rfl fun hwf => hwf.opened havail hfds rfl rfl (.inl ⟨src, hsrc⟩)

/-- What `::open` does. -/
inductive Opened (p : Process) (nonblocking : Bool) (opener : Option (String × Mode)) :
    Process → Int → Prop
  | failed : Opened p nonblocking opener p (-1)
  | done (fd : Int) (n : Nat) (havail : p.kernel.Available fd)
    (hfresh : p.kernel.isOpen (.other n) = false) :
    Opened p nonblocking opener
      { kernel := { p.kernel with
          fds := Function.update p.kernel.fds fd (some (.other n))
          nonblock := Function.update p.kernel.nonblock (.other n) nonblocking }
        ledger := p.ledger.issue fd
        fifos := Function.update p.fifos n opener } fd

theorem openPath_cases {nonblocking : Bool} {opener : Option (String × Mode)}
    {opened : Option (Int × Nat)} {fd : Int}
    (h : p.openPath nonblocking opener opened = some (p', fd)) :
    Opened p nonblocking opener p' fd := by
  cases opened with
  | none =>
    cases h
    exact .failed
  | some r =>
    simp only [Process.openPath] at h
    split at h
    · rename_i hopen
      cases h
      exact .done _ _ hopen.1 hopen.2
    · cases h

theorem does_openPath {nonblocking : Bool} {opener : Option (String × Mode)}
    {opened : Option (Int × Nat)} {fd : Int} (h : held a = some (-1))
    (hopen : p.openPath nonblocking opener opened = some (p', fd)) :
    Does adopting p held p' (Function.update held a (some fd)) := by
  cases openPath_cases hopen with
  | failed =>
    rw [← h, Function.update_eq_self]
    exact .refl p held
  | done _ n havail hfresh =>
    exact does_open h havail rfl rfl fun hwf => hwf.opened havail rfl rfl rfl (.inr ⟨n, rfl⟩)

/-- What `Pipe::create` does. -/
inductive Created (p : Process) : Option (Int × Int) → Process → Pipe → Pipe → Prop
  | failed : Created p none p {} {}
  | done (r w : Int) (hfree : p.kernel.Free r w) :
    Created p (some (r, w)) { p with
      kernel := p.kernel.pipe r w
      ledger := (p.ledger.issue r).issue w } { fd := r, readEnd := true } { fd := w, readEnd := false }

theorem create_cases {pipe : Option (Int × Int)} {readEnd writeEnd : Pipe}
    (h : Pipe.create p pipe = some (p', readEnd, writeEnd)) :
    Created p pipe p' readEnd writeEnd := by
  obtain ⟨q, hpipe, heq⟩ := Option.map_eq_some_iff.mp h
  cases pipe with
  | none =>
    cases hpipe
    cases heq
    exact .failed
  | some rw =>
    simp only [Process.pipe] at hpipe
    split at hpipe
    · rename_i hfree
      cases hpipe
      cases heq
      exact .done rw.1 rw.2 hfree
    · cases hpipe

/-- Two invalid objects are given the ends of a pipe. -/
theorem does_create {pipe : Option (Int × Int)} {readEnd writeEnd : Pipe} (hne : a ≠ b)
    (ha : held a = some (-1)) (hb : held b = some (-1))
    (hcreate : Pipe.create p pipe = some (p', readEnd, writeEnd)) :
    Does adopting p held p'
      (Function.update (Function.update held a (some readEnd.fd)) b (some writeEnd.fd)) := by
  cases create_cases hcreate with
  | failed =>
    have hsame : Function.update (Function.update held a (some (-1))) b (some (-1)) = held := by
      rw [← ha, Function.update_eq_self, ha, ← hb, Function.update_eq_self]
    change Does adopting p held p
      (Function.update (Function.update held a (some (-1))) b (some (-1)))
    rw [hsame]
    exact .refl p held
  | done r w hfree =>
    have hr : r ≠ -1 := by
      have hrange := hfree.1.1
      omega
    have hw : w ≠ -1 := by
      have hrange := hfree.2.1.1
      omega
    have hfirst : Custody.Step (-1) (· = 0) adopting (p.custody held)
        { table := Function.update p.kernel.fds r (some (.readEnd p.kernel.next))
          ledger := p.ledger.issue r
          held := Function.update held a (some r) } :=
      .acquire a r (OpenFile.readEnd p.kernel.next) ha hfree.1.2.2 hr
    refine ⟨.tail (.single hfirst) (.acquire b w (OpenFile.writeEnd p.kernel.next) ?_ ?_ hw),
      fun hwf => hwf.pipe hfree⟩
    · exact (Function.update_of_ne hne.symm ..).trans hb
    · exact (Function.update_of_ne hfree.2.2.symm ..).trans hfree.2.1.2.2

/-- Two new objects for the ends of a pipe. -/
theorem does_createNew {pipe : Option (Int × Int)} {readEnd writeEnd : Pipe} (hne : a ≠ b)
    (ha : held a = none) (hb : held b = none)
    (hcreate : Pipe.create p pipe = some (p', readEnd, writeEnd)) :
    Does adopting p held p'
      (Function.update (Function.update held a (some readEnd.fd)) b (some writeEnd.fd)) := by
  have hmakeA : Does adopting p held p (Function.update held a (some (-1))) := does_make ha
  have hmakeB : Does adopting p (Function.update held a (some (-1))) p
      (Function.update (Function.update held a (some (-1))) b (some (-1))) :=
    does_make ((Function.update_of_ne hne.symm ..).trans hb)
  have hpipe : Does adopting p
      (Function.update (Function.update held a (some (-1))) b (some (-1))) p'
      (Function.update (Function.update (Function.update (Function.update held a (some (-1))) b
        (some (-1))) a (some readEnd.fd)) b (some writeEnd.fd)) :=
    does_create hne ((Function.update_of_ne hne ..).trans (Function.update_self ..))
      (Function.update_self ..) hcreate
  have hsame (x y : Option Int) : Function.update (Function.update (Function.update
      (Function.update held a (some (-1))) b (some (-1))) a x) b y =
      Function.update (Function.update held a x) b y := by
    rw [Function.update_comm hne, Function.update_idem, Function.update_comm hne.symm,
      Function.update_idem]
  rw [hsame] at hpipe
  exact (hmakeA.trans hmakeB).trans hpipe

-- ---------------------------------------------------------------------------
-- Steps
-- ---------------------------------------------------------------------------

theorem State.held_put (s : State) (id : Nat) (o : Object) :
    (s.put id o).held = Function.update s.held id (some o.fd) :=
  Function.comp_update (Option.map Object.fd) s.live id (some o)

theorem State.held_put_self (s : State) (id : Nat) (o : Object) : (s.put id o).held id = some o.fd := by
  rw [State.held_put, Function.update_self]

theorem State.held_put_of_ne {id a : Nat} (h : a ≠ id) (s : State) (o : Object) :
    (s.put id o).held a = s.held a := by
  rw [State.held_put, Function.update_of_ne h]

/-- `ids` are all the objects there are. -/
def State.Listed (s : State) : Prop := ∀ id, s.live id ≠ none → id ∈ s.ids

theorem State.Listed.put {s : State} (h : s.Listed) (a : Nat) (o : Object) : (s.put a o).Listed := by
  intro id hid
  by_cases hida : id = a
  · rw [hida]
    exact List.mem_cons_self
  · exact List.mem_cons_of_mem _ (h id ((Function.update_of_ne hida ..).symm.trans_ne hid))

/-- Every descriptor in use is open and has one holder. -/
structure Sane (s : State) : Prop where
  wf : s.process.kernel.WF
  sound : Custody.Sound (-1) s.custody
  ids : s.Listed

def Event.Adopts : Event → Prop
  | adopt .. => True
  | _ => False

/-- A copy of an invalid `File` finds `-1` in the `fd_` that its constructor
does not set. -/
def Event.SetsFd (s : State) : Event → Prop
  | copyConstruct _ src _ uninit => ∀ f, s.live src = some (.file f) → f.fd < 0 → uninit = -1
  | _ => True

variable {s s' : State} {e : Event}

/-- A descriptor that an object holds is invalid in one way only. -/
theorem Sane.held_cases (h : Sane s) {id : Nat} {x : Int} (hx : s.held id = some x) :
    x = -1 ∨ 0 ≤ x := by
  by_cases hnil : x = -1
  · exact .inl hnil
  · obtain ⟨f, hf⟩ := Option.ne_none_iff_exists'.mp (h.sound.isOpen hx hnil)
    exact .inr (h.wf.range hf).1

theorem held_of_live {id : Nat} {o : Object} (h : s.live id = some o) : s.held id = some o.fd :=
  congrArg (Option.map Object.fd) h

theorem held_of_none {id : Nat} (h : s.live id = none) : s.held id = none :=
  congrArg (Option.map Object.fd) h

theorem ne_of_live {a id : Nat} {o : Object} (h : s.live a = some o) (hnew : s.live id = none) :
    a ≠ id := by
  rintro rfl
  rw [hnew] at h
  cases h

theorem ne_of_held {id a : Nat} {x : Int} (h : s.held a = some x) (hnew : s.live id = none) : a ≠ id := by
  obtain ⟨o, ho, -⟩ := Option.map_eq_some_iff.mp h
  exact ne_of_live ho hnew

theorem Sane.unheld (h : Sane s) {fd : Int} (hadopt : s.Adoptable fd) (id : Nat) :
    s.held id ≠ some fd := by
  intro hheld
  obtain ⟨o, ho, hfd⟩ := Option.map_eq_some_iff.mp hheld
  have hid : id ∈ s.ids := h.ids id (by simp [ho])
  exact hadopt.2 id hid hheld

theorem Called.does (hcall : Called s e s') (h : Sane s) (hset : e.SetsFd s)
    (hadopt : e.Adopts → adopting) : Does adopting s.process s.held s'.process s'.held := by
  cases hcall with
  | default new =>
    rw [State.held_put, Object.default_fd]
    exact does_make (held_of_none new)
  | @adopt id fd new valid =>
    rw [State.held_put]
    rcases valid with rfl | hadoptable
    · exact does_make (held_of_none new)
    · refine does_new (held_of_none new) (.step (.adopt id fd (hadopt trivial) ?_ ?_ fun b hb => ?_))
      · exact Function.update_self ..
      · exact Option.isSome_iff_ne_none.mp hadoptable.1
      · rcases Owns.update_cases hb with ⟨-, heq⟩ | ⟨-, hold⟩
        · obtain rfl := Option.some.inj heq
          exact Option.isSome_iff_ne_none.mp hadoptable.1 h.sound.nil_closed
        · exact h.unheld hadoptable b hold
  | openFile new call =>
    rw [State.held_put]
    exact does_new (held_of_none new) (does_openPath (Function.update_self ..) call)
  | create new₀ new₁ ne call =>
    rw [State.held_put, State.held_put]
    exact does_createNew ne (held_of_none new₀) (held_of_none new₁) call
  | openFifo new call =>
    rw [State.held_put]
    exact does_new (held_of_none new) (does_openPath (Function.update_self ..) call)
  | noFifo new =>
    rw [State.held_put]
    exact does_make (held_of_none new)
  | copyConstruct new source call =>
    rw [State.held_put, Object.withFd_fd]
    exact does_new (held_of_none new) (does_dupFd (Function.update_self ..) call)
  | copyUnset new source invalid =>
    obtain rfl := hset _ source invalid
    rw [State.held_put]
    exact does_make (held_of_none new)
  | copySelf live => exact .refl ..
  | copyAssign dest source ne call =>
    have hheld := held_of_live dest
    rw [State.held_put, Object.withFd_fd]
    exact (does_giveUp hheld (h.held_cases hheld)).replace (does_dupFd (Function.update_self ..) call)
  | moveConstruct new source empty same =>
    have hne := ne_of_live source new
    rw [State.held_put, State.held_put, empty]
    exact (does_make (held_of_none new)).exchange hne (held_of_live source)
  | moveSelf live closed same =>
    rw [State.held_put, closed]
    exact does_closeFd (held_of_live live)
  | moveAssign dest source ne closed same =>
    rw [State.held_put, State.held_put, closed]
    exact (does_closeFd (held_of_live dest)).exchange ne.symm (held_of_live source)
  | @destroy a o live =>
    have hheld := held_of_live live
    have hlast : ({ s with
        process := (closeFd s.process o.fd).1
        live := Function.update s.live a none } : State).held = Function.update s.held a none :=
      Function.comp_update (Option.map Object.fd) s.live a none
    rw [hlast]
    exact (does_giveUp hheld (h.held_cases hheld)).replace (.step (.drop a (Function.update_self ..)))

theorem Called.listed (hcall : Called s e s') (h : s.Listed) : s'.Listed := by
  have hset (p : Process) : State.Listed { s with process := p } := h
  cases hcall with
  | default | adopt | noFifo | copyUnset => exact h.put _ _
  | openFile | openFifo | copyConstruct | copyAssign | moveSelf => exact (hset _).put _ _
  | create | moveAssign => exact ((hset _).put _ _).put _ _
  | moveConstruct => exact (h.put _ _).put _ _
  | copySelf => exact h
  | @destroy a =>
    intro id hid
    by_cases hida : id = a
    · rw [hida] at hid
      exact (hid (Function.update_self ..)).elim
    · exact h id ((Function.update_of_ne hida ..).symm.trans_ne hid)

theorem Sane.step (h : Sane s) (hstep : step s e = some s') (hset : e.SetsFd s) : Sane s' where
  wf := ((step_called hstep).does h hset fun _ => trivial).wf h.wf
  sound := h.sound.steps ((step_called hstep).does h hset fun _ => trivial).steps
  ids := (step_called hstep).listed h.ids

variable {limit capacity : Nat} {files : Int → Option Nat} {es : List Event}

theorem sane_init : Sane (objects limit capacity files).init where
  wf := Kernel.wf_initial limit capacity files
  sound := by
    refine ⟨?_, fun h => (nomatch h), fun h => (nomatch h)⟩
    rfl
  ids _ h := (h rfl).elim

-- ---------------------------------------------------------------------------
-- What objects report
-- ---------------------------------------------------------------------------

/-- A valid object reports what its descriptor refers to. -/
def Reports (p : Process) : Object → Prop
  | .file _ => True
  | .pipe f => 0 ≤ f.fd →
    ∃ q, p.kernel.fds f.fd = some (if f.readEnd then .readEnd q else .writeEnd q)
  | .fifo f => 0 ≤ f.fd →
    ∃ n, p.kernel.fds f.fd = some (.other n) ∧ p.fifos n = some (f.pathname, f.mode)

/-- What was open is as it was, but for the descriptors in `lost`. -/
def Process.Keeps (p p' : Process) (lost : Int → Prop) : Prop :=
  ∀ fd f, p.kernel.fds fd = some f → ¬ lost fd →
    p'.kernel.fds fd = some f ∧ ∀ n, f = .other n → p'.fifos n = p.fifos n

theorem closeFd_keeps (p : Process) (x : Int) : p.Keeps (closeFd p x).1 (· = x) := by
  intro fd f hfd hne
  unfold closeFd
  split
  · exact ⟨Kernel.close_fds_eq_some.mpr ⟨hne, hfd⟩, fun n _ => rfl⟩
  · exact ⟨hfd, fun n _ => rfl⟩

/-- A descriptor that was available is none of those that were open. -/
theorem ne_of_available {fd x : Int} {f : OpenFile} (hfd : p.kernel.fds fd = some f)
    (hx : p.kernel.Available x) : fd ≠ x := by
  rintro rfl
  rw [hx.2.2] at hfd
  cases hfd

theorem dupFd_keeps {src fd : Int} {dup : Option Int} (h : dupFd p src dup = some (p', fd)) :
    p.Keeps p' fun _ => False := by
  intro x f hx _
  cases dupFd_cases h with
  | invalid | failed => exact ⟨hx, fun n _ => rfl⟩
  | done _ _ _ _ havail =>
    exact ⟨(Function.update_of_ne (ne_of_available hx havail) ..).trans hx, fun n _ => rfl⟩

theorem openPath_keeps (hwf : p.kernel.WF) {nonblocking : Bool} {opener : Option (String × Mode)}
    {opened : Option (Int × Nat)} {fd : Int}
    (h : p.openPath nonblocking opener opened = some (p', fd)) : p.Keeps p' fun _ => False := by
  intro x f hx _
  cases openPath_cases h with
  | failed => exact ⟨hx, fun n _ => rfl⟩
  | done _ n havail hfresh =>
    refine ⟨(Function.update_of_ne (ne_of_available hx havail) ..).trans hx, ?_⟩
    rintro m rfl
    have hne : m ≠ n := by
      rintro rfl
      rw [hwf.isOpen hx] at hfresh
      cases hfresh
    exact Function.update_of_ne hne ..

theorem create_keeps {pipe : Option (Int × Int)} {readEnd writeEnd : Pipe}
    (h : Pipe.create p pipe = some (p', readEnd, writeEnd)) : p.Keeps p' fun _ => False := by
  intro x f hx _
  cases create_cases h with
  | failed => exact ⟨hx, fun n _ => rfl⟩
  | done r w hfree => exact ⟨Kernel.pipe_fds_of_some hfree hx, fun n _ => rfl⟩

variable {o : Object}

theorem reports_of_invalid (h : o.fd < 0) : Reports p o := by
  cases o with
  | file f => trivial
  | pipe f => exact fun hvalid => (Int.not_lt.mpr hvalid h).elim
  | fifo f => exact fun hvalid => (Int.not_lt.mpr hvalid h).elim

theorem Reports.keep (h : Reports p o) {lost : Int → Prop} (hkeeps : p.Keeps p' lost)
    (hlost : 0 ≤ o.fd → ¬ lost o.fd) : Reports p' o := by
  cases o with
  | file f => trivial
  | pipe f =>
    intro hvalid
    obtain ⟨q, hq⟩ := h hvalid
    exact ⟨q, (hkeeps _ _ hq (hlost hvalid)).1⟩
  | fifo f =>
    intro hvalid
    obtain ⟨n, hn, hfifo⟩ := h hvalid
    obtain ⟨hfd, hsame⟩ := hkeeps _ _ hn (hlost hvalid)
    exact ⟨n, hfd, (hsame n rfl).trans hfifo⟩

/-- A duplicate reports the same. -/
theorem Reports.dup (h : Reports p o) {fd : Int} {dup : Option Int}
    (hdup : dupFd p o.fd dup = some (p', fd)) : Reports p' (o.withFd fd) := by
  cases dupFd_cases hdup with
  | invalid | failed => exact reports_of_invalid (by rw [Object.withFd_fd]; decide)
  | done hvalid _ f hsrc havail =>
    have hfd : (p.kernel.dup o.fd fd).fds fd = p.kernel.fds o.fd := Function.update_self ..
    cases o with
    | file g => trivial
    | pipe g =>
      obtain ⟨q, hq⟩ := h hvalid
      exact fun _ => ⟨q, hfd.trans hq⟩
    | fifo g =>
      obtain ⟨n, hn, hfifo⟩ := h hvalid
      exact fun _ => ⟨n, hfd.trans hn, hfifo⟩

theorem create_reports {pipe : Option (Int × Int)} {readEnd writeEnd : Pipe}
    (h : Pipe.create p pipe = some (p', readEnd, writeEnd)) :
    Reports p' (.pipe readEnd) ∧ Reports p' (.pipe writeEnd) := by
  cases create_cases h with
  | failed =>
    exact ⟨reports_of_invalid (Int.negSucc_lt_zero 0), reports_of_invalid (Int.negSucc_lt_zero 0)⟩
  | done r w hfree =>
    exact ⟨fun _ => ⟨_, Kernel.pipe_fds_read hfree⟩, fun _ => ⟨_, Kernel.pipe_fds_write ..⟩⟩

theorem openPath_reports {pathname : String} {mode : Mode} {nonblocking : Bool}
    {opened : Option (Int × Nat)} {fd : Int}
    (h : p.openPath nonblocking (some (pathname, mode)) opened = some (p', fd)) :
    Reports p' (.fifo { fd := fd, mode := mode, pathname := pathname }) := by
  cases openPath_cases h with
  | failed => exact reports_of_invalid (Int.negSucc_lt_zero 0)
  | done _ n havail hfresh =>
    exact fun _ => ⟨n, Function.update_self .., Function.update_self ..⟩

-- ---------------------------------------------------------------------------
-- Pipes and FIFOs
-- ---------------------------------------------------------------------------

/-- A constructor of `File` is not called. -/
def Event.NoFile : Event → Prop
  | default _ cls _ => cls ≠ .file
  | adopt .. | openFile .. => False
  | _ => True

/-- Objects that are pipes and FIFOs, and everything that holds of them. -/
structure Tidy (s : State) : Prop where
  sane : Sane s
  accounted : Custody.Accounted (-1) (· = 0) s.custody
  noFile : ∀ id o, s.live id = some o → o.cls ≠ .file
  reports : ∀ id o, s.live id = some o → Reports s.process o

theorem State.forall_put {P : Object → Prop} {a : Nat} {o : Object}
    (h : ∀ id o', id ≠ a → s.live id = some o' → P o') (ho : P o) :
    ∀ id o', (s.put a o).live id = some o' → P o' := by
  intro id o' hid
  rcases Owns.update_cases hid with ⟨-, heq⟩ | ⟨hne, hold⟩
  · exact Option.some.inj heq ▸ ho
  · exact h id o' hne hold

theorem Tidy.setsFd (h : Tidy s) (e : Event) : e.SetsFd s := by
  cases e with
  | copyConstruct id src dup uninit => exact fun f hf => (h.noFile src _ hf rfl).elim
  | default | adopt | openFile | create | openFifo | copyAssign | moveConstruct | moveAssign
  | destroy => trivial

theorem Called.noFile (hcall : Called s e s') (h : Tidy s) (hno : e.NoFile) :
    ∀ id o, s'.live id = some o → o.cls ≠ .file := by
  have hold (a id : Nat) (o : Object) (_ : id ≠ a) (hid : s.live id = some o) : o.cls ≠ .file :=
    h.noFile id o hid
  cases hcall with
  | default => exact State.forall_put (hold _) (by rwa [Object.default_cls])
  | adopt | openFile => exact hno.elim
  | create =>
    refine State.forall_put (fun id o _ => State.forall_put (hold _) ?_ id o) ?_ <;> nofun
  | openFifo | noFifo => exact State.forall_put (hold _) nofun
  | copyConstruct new source call =>
    exact State.forall_put (hold _) (by rw [Object.withFd_cls]; exact h.noFile _ _ source)
  | copyUnset new source invalid => exact (h.noFile _ _ source rfl).elim
  | copySelf => exact h.noFile
  | copyAssign dest source ne call =>
    exact State.forall_put (hold _) (by rw [Object.withFd_cls]; exact h.noFile _ _ source)
  | moveConstruct new source empty same =>
    apply State.forall_put (fun id o _ => State.forall_put (hold _) (h.noFile _ _ source) id o)
    rw [same]
    exact h.noFile _ _ source
  | moveSelf live closed same =>
    apply State.forall_put (hold _)
    rw [same]
    exact h.noFile _ _ live
  | moveAssign dest source ne closed same =>
    apply State.forall_put (fun id o _ => State.forall_put (hold _) (h.noFile _ _ source) id o)
    rw [same]
    exact h.noFile _ _ source
  | @destroy a =>
    intro id o hid
    rcases Owns.update_cases hid with ⟨-, heq⟩ | ⟨-, hold⟩
    · cases heq
    · exact h.noFile id o hold

/-- An object whose descriptor was closed holds nothing: none holds `0`. -/
theorem Tidy.closeFd_neg (h : Tidy s) {a : Nat} {d : Object} (hd : s.live a = some d) :
    (closeFd s.process d.fd).2 < 0 := by
  have hzero : d.fd ≠ 0 := fun heq =>
    h.accounted.not_held rfl a ((held_of_live hd).trans (congrArg some heq))
  unfold closeFd
  split
  · exact Int.negSucc_lt_zero 0
  · change d.fd < 0
    omega

/-- An object still reports the same after another one's descriptor was closed. -/
theorem Tidy.reports_closeFd (h : Tidy s) {a id : Nat} {d o : Object} (hd : s.live a = some d)
    (ho : s.live id = some o) (hne : id ≠ a) : Reports (closeFd s.process d.fd).1 o := by
  refine (h.reports id o ho).keep (closeFd_keeps s.process d.fd) fun hvalid heq => hne ?_
  have hnil : o.fd ≠ -1 := by omega
  exact h.sane.sound.apart (held_of_live ho) ((held_of_live hd).trans (congrArg some heq.symm)) hnil

theorem Called.reports (hcall : Called s e s') (h : Tidy s) (hno : e.NoFile) :
    ∀ id o, s'.live id = some o → Reports s'.process o := by
  have hold {p : Process} (hkeeps : s.process.Keeps p fun _ => False) (a id : Nat) (o : Object)
      (_ : id ≠ a) (ho : s.live id = some o) : Reports p o :=
    (h.reports id o ho).keep hkeeps fun _ => not_false
  have hsame : s.process.Keeps s.process fun _ => False := fun fd f hfd _ => ⟨hfd, fun n _ => rfl⟩
  cases hcall with
  | default => exact State.forall_put (hold hsame _) (reports_of_invalid (by simp))
  | adopt | openFile => exact hno.elim
  | create new₀ new₁ ne call =>
    have hends := create_reports call
    refine State.forall_put (fun id o _ ho => ?_) hends.2
    exact State.forall_put (s := { s with process := _ }) (hold (create_keeps call) _) hends.1 id o ho
  | openFifo new call =>
    exact State.forall_put (s := { s with process := _ })
      (hold (openPath_keeps h.sane.wf call) _) (openPath_reports call)
  | noFifo => exact State.forall_put (hold hsame _) (reports_of_invalid (Int.negSucc_lt_zero 0))
  | copyConstruct new source call =>
    exact State.forall_put (s := { s with process := _ }) (hold (dupFd_keeps call) _)
      ((h.reports _ _ source).dup call)
  | copyUnset new source invalid => exact (h.noFile _ _ source rfl).elim
  | copySelf => exact h.reports
  | copyAssign dest source ne call =>
    refine State.forall_put (s := { s with process := _ }) (fun id o hid ho => ?_)
      ((h.reports_closeFd dest source ne.symm).dup call)
    exact (h.reports_closeFd dest ho hid).keep (dupFd_keeps call) fun _ => not_false
  | moveConstruct new source empty same =>
    refine State.forall_put (fun id o _ => State.forall_put (hold hsame _) (h.reports _ _ source) id o)
      (reports_of_invalid ?_)
    rw [empty]
    decide
  | moveSelf live closed same =>
    refine State.forall_put (s := { s with process := _ })
      (fun id o hid ho => h.reports_closeFd live ho hid) (reports_of_invalid ?_)
    rw [closed]
    exact h.closeFd_neg live
  | moveAssign dest source ne closed same =>
    refine State.forall_put (fun id o hid ho => ?_) (reports_of_invalid ?_)
    · exact State.forall_put (s := { s with process := _ })
        (fun id o hid ho => h.reports_closeFd dest ho hid)
        (h.reports_closeFd dest source ne.symm) id o ho
    · rw [closed]
      exact h.closeFd_neg dest
  | @destroy a o live =>
    intro id o' hid
    rcases Owns.update_cases hid with ⟨-, heq⟩ | ⟨hne, hold⟩
    · cases heq
    · exact h.reports_closeFd live hold hne

theorem Tidy.step (h : Tidy s) (hstep : step s e = some s') (hno : e.NoFile) : Tidy s' := by
  have hcall := step_called hstep
  have hadopt : e.Adopts → False := by
    cases e with
    | adopt => exact fun _ => hno
    | default | openFile | create | openFifo | copyConstruct | copyAssign | moveConstruct | moveAssign
    | destroy => exact id
  exact {
    sane := h.sane.step hstep (h.setsFd e)
    accounted := h.accounted.steps (hcall.does h.sane (h.setsFd e) hadopt).steps
    noFile := hcall.noFile h hno
    reports := hcall.reports h hno }

theorem tidy_init (hzero : (Kernel.initial limit capacity files).fds 0 ≠ none) :
    Tidy (objects limit capacity files).init where
  sane := sane_init
  accounted := {
    sound := sane_init.sound
    owns := Owns.empty.congr fun x => by simp [objects, State.custody, Process.custody]
    balanced := Ledger.balanced_empty
    kept := by
      rintro x rfl
      exact ⟨hzero, rfl⟩ }
  noFile _ _ h := nomatch h
  reports _ _ h := nomatch h

theorem run_tidy (hzero : (Kernel.initial limit capacity files).fds 0 ≠ none)
    (hes : ∀ e ∈ es, e.NoFile) (hrun : (objects limit capacity files).run es = some s) : Tidy s := by
  revert hes
  refine (objects limit capacity files).run_invariant (I := fun es s => (∀ e ∈ es, e.NoFile) → Tidy s)
    ?_ ?_ hrun
  · exact fun _ => tidy_init hzero
  · intro es s e s' _ h hstep hes
    have htidy := h fun e' he' => hes e' (List.mem_append_left _ he')
    exact htidy.step hstep (hes e (List.mem_append_right _ (List.mem_singleton_self e)))

/-- The descriptor of the `i`-th opening is held by an object. -/
def State.Holds (s : State) (i : Nat) (fd : Int) : Prop :=
  s.process.ledger.current fd = some i ∧ ∃ id o, s.live id = some o ∧ o.fd = fd

/-- Every descriptor has one owner while it is open, and nobody closes what is
not theirs. -/
structure Owned (s : State) : Prop where
  distinct : ∀ a b o o', s.live a = some o → s.live b = some o' → o.ok = true → o.fd = o'.fd → a = b
  isOpen : ∀ a o, s.live a = some o → o.ok = true → (s.process.kernel.fds o.fd).isSome = true
  held : ∀ i fd, s.process.ledger.issued[i]? = some fd → s.Holds i fd →
    s.process.ledger.releases i = 0
  closed : ∀ i fd, s.process.ledger.issued[i]? = some fd → ¬ s.Holds i fd →
    s.process.ledger.releases i = 1
  noStray : s.process.ledger.stray = 0
  pipe : ∀ a f, s.live a = some (.pipe f) → 0 ≤ f.fd →
    (f.readEnd = true ↔ ∃ q, s.process.kernel.fds f.fd = some (.readEnd q))
  fifo : ∀ a f, s.live a = some (.fifo f) → 0 ≤ f.fd →
    ∃ n, s.process.kernel.fds f.fd = some (.other n) ∧
      s.process.fifos n = some (f.pathname, f.mode)

theorem Tidy.holds (h : Tidy s) {i : Nat} {fd : Int}
    (hcurrent : s.process.ledger.current fd = some i) : s.Holds i fd := by
  obtain ⟨id, hid⟩ := (h.accounted.owns.used_iff fd).mp (Option.isSome_iff_exists.mpr ⟨i, hcurrent⟩)
  obtain ⟨o, ho, hfd⟩ := Option.map_eq_some_iff.mp (Custody.holds_eq_some.mp hid).1
  exact ⟨hcurrent, id, o, ho, hfd⟩

theorem valid_of_ok {o : Object} (h : o.ok = true) : o.fd ≠ -1 := by
  have hvalid : 0 ≤ o.fd := of_decide_eq_true h
  omega

/-- In every run of calls on pipes and FIFOs, whatever fails, every descriptor
that was opened is held by exactly one object, or was closed exactly once. -/
theorem run_owned (hzero : (Kernel.initial limit capacity files).fds 0 ≠ none)
    (hes : ∀ e ∈ es, e.NoFile) (hrun : (objects limit capacity files).run es = some s) : Owned s := by
  have htidy := run_tidy hzero hes hrun
  have hbalanced := htidy.accounted.balanced
  constructor
  · intro a b o o' ha hb hok heq
    exact htidy.sane.sound.apart (held_of_live ha)
      ((held_of_live hb).trans (congrArg some heq.symm)) (valid_of_ok hok)
  · intro a o ha hok
    exact Option.isSome_iff_ne_none.mpr (htidy.sane.sound.isOpen (held_of_live ha) (valid_of_ok hok))
  · intro i fd hget hholds
    exact hbalanced.outstanding hholds.1
  · intro i fd hget hnot
    exact hbalanced.released hget fun hcurrent => hnot (htidy.holds hcurrent)
  · exact hbalanced.stray
  · intro a f ha hvalid
    obtain ⟨q, hq⟩ := htidy.reports a _ ha hvalid
    rw [hq]
    cases f.readEnd with
    | true => exact iff_of_true rfl ⟨q, rfl⟩
    | false => exact iff_of_false nofun nofun
  · intro a f ha hvalid
    exact htidy.reports a _ ha hvalid

/-- Two ends, a copy of one, a self-move of the other, and a FIFO that is given
its descriptor again. -/
theorem run_owned_example :
    ∃ s, (objects 8 16 fun fd => if fd = 0 then some 0 else none).run
      [.create 0 1 (some (3, 4)), .copyConstruct 2 0 (some 5) 0, .moveAssign 1 1 "",
        .openFifo 3 "teleop" .read false .made (some (4, 1)), .copyConstruct 4 3 none 0,
        .moveAssign 4 3 "", .destroy 0] = some s ∧ Owned s := by
  have hsome : ((objects 8 16 fun fd => if fd = 0 then some 0 else none).run
      [.create 0 1 (some (3, 4)), .copyConstruct 2 0 (some 5) 0, .moveAssign 1 1 "",
        .openFifo 3 "teleop" .read false .made (some (4, 1)), .copyConstruct 4 3 none 0,
        .moveAssign 4 3 "", .destroy 0]).isSome = true := by
    decide +kernel
  obtain ⟨s, hs⟩ := Option.isSome_iff_exists.mp hsome
  exact ⟨s, hs, run_owned (by decide) (by simp [Event.NoFile]) hs⟩

end Rix.Ipc.Objects
