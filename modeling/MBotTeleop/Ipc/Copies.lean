-- SUMMARY: Copies of File, Pipe and Fifo objects, and the one constructor that does not set the descriptor of a copy.
import MBotTeleop.Ipc.Descriptors

/-!
# Copies

Six members copy an object. A copy has a duplicate of the descriptor, or `-1`
where there is none to duplicate. Only the copy constructor of `File` leaves
`fd_` as it is when its source is invalid. Where two objects hold one descriptor,
one of them closes it under the other, and `::dup` may return it again.
-/

namespace Rix.Ipc.Objects

/-- The destination and the source of a copy, and what `::dup` returns. -/
def Event.copies? : Event → Option (Nat × Nat × Option Int)
  | copyConstruct id src dup _ => some (id, src, dup)
  | copyAssign dst src dup => some (dst, src, dup)
  | _ => none

/-- The object `o'` at `dst` is a copy of the object `o` at `src`, made between
`s` and `s'`. -/
structure CopyOf (s s' : State) (dst src : Nat) (dup : Option Int) (o o' : Object) : Prop where
  ok : o'.ok = o.ok
  invalid : o.ok = false → o'.fd = -1
  /-- The source still refers to what it referred to, and so does the copy. -/
  file : o.ok = true → ∃ f, s.process.kernel.fds o.fd = some f ∧
    s'.process.kernel.fds o.fd = some f ∧ s'.process.kernel.fds o'.fd = some f
  apart : o'.ok = true → ∀ id o'', s'.live id = some o'' → o''.fd = o'.fd → id = dst
  source : s'.live src = some o
  /-- The destructor of the copy closes what `::dup` returned, and nothing else. -/
  closes : dst ≠ src → ∀ s'', stepAny s' (.destroy dst) = some s'' →
    ∀ fd, s''.process.kernel.fds fd ≠ s'.process.kernel.fds fd → dup = some fd

/-- A copy is what it should be, where `::dup` succeeds if it is called. -/
def CopyPreserves (s : State) (e : Event) (s' : State) : Prop :=
  ∀ dst src dup o, e.copies? = some (dst, src, dup) → s.live src = some o →
    (dst ≠ src → o.ok = true → dup ≠ none) →
    ∃ o', s'.live dst = some o' ∧ CopyOf s s' dst src dup o o'

variable {s s' : State} {e : Event}

/-- A destructor closes the descriptor of its object. -/
theorem destroy_closes {a : Nat} {o : Object} (ho : s.live a = some o)
    (hstep : stepAny s (.destroy a) = some s') {fd : Int}
    (hfd : s'.process.kernel.fds fd ≠ s.process.kernel.fds fd) : fd = o.fd ∧ 0 < o.fd := by
  have hstep : step s (.destroy a) = some s' := hstep
  cases step_called hstep with
  | destroy live =>
    obtain rfl := Option.some.inj (live.symm.trans ho)
    by_contra hnot
    apply hfd
    unfold closeFd
    split
    · rename_i hpos
      exact Function.update_of_ne (fun heq => hnot ⟨heq, hpos⟩) ..
    · rfl

/-- What is open after a close was open before. -/
theorem closeFd_fds {p : Process} {fd x : Int} {f : OpenFile}
    (h : (closeFd p fd).1.kernel.fds x = some f) : p.kernel.fds x = some f := by
  unfold closeFd at h
  split at h
  · by_cases hx : x = fd
    · have hclosed : (p.close fd).kernel.fds x = none := hx ▸ Function.update_self ..
      cases hclosed.symm.trans h
    · exact (Function.update_of_ne hx ..).symm.trans h
  · exact h

/-- What two copies have in common: the duplicate of the source's descriptor is
taken in a process `p` that may have closed another. -/
theorem copyOf_dupFd {p p' : Process} {dst src : Nat} {dup : Option Int} {o : Object} {fd : Int}
    (hprocess : s'.process = p') (hdst : s'.live dst = some (o.withFd fd))
    (hsrc : s'.live src = some o) (hdup : dupFd p o.fd dup = some (p', fd))
    (hcalled : o.ok = true → dup ≠ none)
    (hkeep : ∀ f, p.kernel.fds o.fd = some f → s.process.kernel.fds o.fd = some f)
    (hapart : 0 ≤ o.fd → dup = some fd → ∀ id o'', s'.live id = some o'' → o''.fd = fd → id = dst) :
    CopyOf s s' dst src dup o (o.withFd fd) := by
  have hresult : (o.fd < 0 ∧ fd = -1) ∨ (0 ≤ o.fd ∧ 0 ≤ fd ∧ dup = some fd ∧
      ∃ f, p.kernel.fds o.fd = some f ∧ p'.kernel.fds fd = some f) := by
    cases dupFd_cases hdup with
    | invalid _ h => exact .inl ⟨h, rfl⟩
    | failed h => exact (hcalled (decide_eq_true h) rfl).elim
    | done h _ f hf havail =>
      exact .inr ⟨h, havail.1, rfl, f, hf, (Function.update_self ..).trans hf⟩
  have hok : (o.withFd fd).ok = decide (0 ≤ fd) := by rw [Object.ok, Object.withFd_fd]
  constructor
  · rw [hok]
    rcases hresult with ⟨hneg, rfl⟩ | ⟨hvalid, hfd, -⟩
    · exact decide_eq_decide.mpr ⟨fun h => by omega, fun h => by omega⟩
    · exact decide_eq_decide.mpr ⟨fun _ => hvalid, fun _ => hfd⟩
  · intro hinvalid
    rw [Object.withFd_fd]
    rcases hresult with ⟨-, hfd⟩ | ⟨hvalid, -⟩
    · exact hfd
    · exact (of_decide_eq_false hinvalid hvalid).elim
  · intro hvalid
    rw [Object.withFd_fd, hprocess]
    rcases hresult with ⟨hneg, -⟩ | ⟨-, -, -, f, hf, hf'⟩
    · have hnonneg : 0 ≤ o.fd := of_decide_eq_true hvalid
      omega
    · exact ⟨f, hkeep f hf, (dupFd_keeps hdup _ f hf not_false).1, hf'⟩
  · intro hvalid id o'' hid heq
    rw [Object.withFd_fd] at heq
    rcases hresult with ⟨-, rfl⟩ | ⟨hnonneg, -, hdone, -⟩
    · rw [hok] at hvalid
      cases hvalid
    · exact hapart hnonneg hdone id o'' hid heq
  · exact hsrc
  · intro hne s'' hstep x hx
    obtain ⟨rfl, hpos⟩ := destroy_closes hdst hstep hx
    rw [Object.withFd_fd] at hpos ⊢
    rcases hresult with ⟨-, rfl⟩ | ⟨-, -, hdone, -⟩
    · exact absurd hpos (by decide)
    · exact hdone

/-- No object but `dst` holds the descriptor. -/
def State.HeldByNoOther (s : State) (dst : Nat) (fd : Int) : Prop :=
  ∀ id, id ≠ dst → s.held id ≠ some fd

/-- What `::dup` returns is held by no other object. An object that is assigned
to itself holds nothing, or an open descriptor of its own. -/
def Event.DupsApart (s : State) (e : Event) : Prop :=
  ∀ dst src dup o, e.copies? = some (dst, src, dup) → s.live src = some o →
    if dst = src then
      o.fd = -1 ∨ 0 ≤ o.fd ∧ (s.process.kernel.fds o.fd).isSome = true ∧ s.HeldByNoOther dst o.fd
    else
      0 ≤ o.fd → ∀ fd, dup = some fd → s.HeldByNoOther dst fd

/-- The other objects hold what they held, after a copy. -/
theorem State.HeldByNoOther.put {p : Process} {dst : Nat} {fd : Int} (h : s.HeldByNoOther dst fd)
    {o o'' : Object} {id : Nat} (hid : ({ s with process := p }.put dst o).live id = some o'')
    (heq : o''.fd = fd) : id = dst := by
  by_contra hne
  exact h id hne ((held_of_live ((Function.update_of_ne hne ..).symm.trans hid)).trans
    (congrArg some heq))

theorem Called.copyPreserves (hcall : Called s e s') (hset : e.SetsFd s) (hdups : e.DupsApart s) :
    CopyPreserves s e s' := by
  intro dst src dup o hcopies hsrc hcalled
  have hapart := hdups dst src dup o hcopies hsrc
  cases hcall with
  | default | adopt | openFile | create | openFifo | noFifo | moveConstruct | moveSelf | moveAssign
  | destroy => cases hcopies
  | @copyConstruct id _ _ uninit o₁ p fd new source call =>
    cases hcopies
    obtain rfl := Option.some.inj (source.symm.trans hsrc)
    have hne := ne_of_live source new
    rw [if_neg hne.symm] at hapart
    have hdst := Function.update_self dst (some (o₁.withFd fd)) s.live
    exact ⟨_, hdst, copyOf_dupFd rfl hdst ((Function.update_of_ne hne ..).trans source) call
      (hcalled hne.symm) (fun _ => id) fun hvalid hdup _ _ hid heq =>
        (hapart hvalid fd hdup).put hid heq⟩
  | @copyUnset id _ _ uninit f new source invalid =>
    cases hcopies
    obtain rfl := Option.some.inj (source.symm.trans hsrc)
    obtain rfl := hset f source invalid
    have hne := ne_of_live source new
    have hdst := Function.update_self dst (some ((Object.file f).withFd (-1))) s.live
    have hdup : dupFd s.process f.fd dup = some (s.process, -1) := if_neg (by omega)
    exact ⟨_, hdst, copyOf_dupFd rfl hdst ((Function.update_of_ne hne ..).trans source) hdup
      (hcalled hne.symm) (fun _ => id) fun hvalid => (Int.not_lt.mpr hvalid invalid).elim⟩
  | @copySelf _ _ o₁ live =>
    cases hcopies
    obtain rfl := Option.some.inj (live.symm.trans hsrc)
    rw [if_pos rfl] at hapart
    rcases hapart with hnil | ⟨hvalid, hopen, hother⟩
    · have hnot : o₁.ok = true → False := fun hok => by
        have hnonneg : 0 ≤ o₁.fd := of_decide_eq_true hok
        omega
      exact ⟨_, live, rfl, fun _ => hnil, fun hok => (hnot hok).elim, fun hok => (hnot hok).elim,
        live, fun hne => (hne rfl).elim⟩
    · obtain ⟨f, hf⟩ := Option.isSome_iff_exists.mp hopen
      refine ⟨_, live, rfl, fun hinvalid => (of_decide_eq_false hinvalid hvalid).elim,
        fun _ => ⟨f, hf, hf, hf⟩, fun _ id o'' hid heq => ?_, live, fun hne => (hne rfl).elim⟩
      by_contra hne
      exact hother id hne ((held_of_live hid).trans (congrArg some heq))
  | @copyAssign _ _ _ d o₁ p fd dest source ne call =>
    cases hcopies
    obtain rfl := Option.some.inj (source.symm.trans hsrc)
    rw [if_neg ne] at hapart
    have hdst := Function.update_self dst (some (o₁.withFd fd)) s.live
    exact ⟨_, hdst, copyOf_dupFd rfl hdst ((Function.update_of_ne ne.symm ..).trans source) call
      (hcalled ne) (fun _ => closeFd_fds) fun hvalid hdup _ _ hid heq =>
        (hapart hvalid fd hdup).put hid heq⟩

/-- A copy that preserves its source has set its descriptor. -/
theorem CopyPreserves.setsFd (h : CopyPreserves s e s') (hstep : stepAny s e = some s') :
    e.SetsFd s := by
  cases e with
  | copyConstruct id src dup uninit =>
    intro f hsrc hinvalid
    have hnot : ¬ 0 ≤ f.fd := by omega
    simp only [stepAny, step, hsrc] at hstep
    split at hstep
    · rename_i o hnew hsome
      cases hsome
      simp only [Object.copyConstruct, File.copyConstruct, hnot, if_false, Option.map_some] at hstep
      cases hstep
      have hok : (Object.file f).ok = false := decide_eq_false hnot
      obtain ⟨o', ho', hcopy⟩ := h id src dup _ rfl hsrc fun _ hvalid => by
        rw [hok] at hvalid
        cases hvalid
      have hfd := hcopy.invalid hok
      have hlive := Function.update_self id (some (Object.file { fd := uninit })) s.live
      obtain rfl := Option.some.inj (hlive.symm.trans ho')
      exact hfd
    · cases hstep
  | default | adopt | openFile | create | openFifo | copyAssign | moveConstruct | moveAssign
  | destroy => trivial

/-- The copy holds what `::dup` returned, so no other object held that. -/
theorem CopyOf.heldByNoOther {p p' : Process} {dst src : Nat} {dup : Option Int} {o o' : Object}
    {fd fd' : Int} (h : CopyOf s s' dst src dup o o') (hvalid : 0 ≤ o.fd)
    (ho' : s'.live dst = some o')
    (hs' : s' = { s with process := p' }.put dst (o.withFd fd'))
    (hdup : dupFd p o.fd dup = some (p', fd')) (hfd : dup = some fd) : s.HeldByNoOther dst fd := by
  subst hs' hfd
  have hself : ({ s with process := p' }.put dst (o.withFd fd')).live dst = some (o.withFd fd') :=
    Function.update_self ..
  obtain rfl := Option.some.inj (hself.symm.trans ho')
  have hok : (o.withFd fd').ok = true := h.ok.trans (decide_eq_true hvalid)
  have hsame : fd = fd' := by
    cases dupFd_cases hdup with
    | invalid _ hneg => omega
    | done => rfl
  intro id hne hheld
  obtain ⟨o'', hlive, heq⟩ := Option.map_eq_some_iff.mp hheld
  refine hne (h.apart hok id o'' ((Function.update_of_ne hne ..).trans hlive) ?_)
  rw [Object.withFd_fd, heq, hsame]

/-- A copy that preserves its source was given a descriptor of its own. -/
theorem CopyPreserves.dupsApart (h : CopyPreserves s e s') (hstep : stepAny s e = some s') :
    e.DupsApart s := by
  intro dst src dup o hcopies hsrc
  rcases stepAny_cases hstep with hcall | ⟨id, fd, rfl, -, -⟩
  · cases hcall with
    | default | adopt | openFile | create | openFifo | noFifo | moveConstruct | moveSelf | moveAssign
    | destroy => cases hcopies
    | copyConstruct new source call =>
      cases hcopies
      obtain rfl := Option.some.inj (source.symm.trans hsrc)
      rw [if_neg (ne_of_live source new).symm]
      intro hvalid fd hfd
      obtain ⟨o', ho', hcopy⟩ := h _ _ _ _ rfl hsrc fun _ _ => hfd ▸ nofun
      exact hcopy.heldByNoOther hvalid ho' rfl call hfd
    | copyUnset new source invalid =>
      cases hcopies
      obtain rfl := Option.some.inj (source.symm.trans hsrc)
      rw [if_neg (ne_of_live source new).symm]
      exact fun hvalid => (Int.not_lt.mpr hvalid invalid).elim
    | @copySelf a dup o₁ live =>
      cases hcopies
      obtain rfl := Option.some.inj (live.symm.trans hsrc)
      rw [if_pos rfl]
      obtain ⟨o', ho', hcopy⟩ := h _ _ _ _ rfl hsrc fun hne => (hne rfl).elim
      obtain rfl := Option.some.inj (live.symm.trans ho')
      cases hok : o₁.ok with
      | false => exact .inl (hcopy.invalid hok)
      | true =>
        obtain ⟨f, hf, -⟩ := hcopy.file hok
        refine .inr ⟨of_decide_eq_true hok, Option.isSome_iff_exists.mpr ⟨f, hf⟩, ?_⟩
        intro id hne hheld
        obtain ⟨o'', hlive, heq⟩ := Option.map_eq_some_iff.mp hheld
        exact hne (hcopy.apart hok id o'' hlive heq)
    | copyAssign dest source ne call =>
      cases hcopies
      obtain rfl := Option.some.inj (source.symm.trans hsrc)
      rw [if_neg ne]
      intro hvalid fd hfd
      obtain ⟨o', ho', hcopy⟩ := h _ _ _ _ rfl hsrc fun _ _ => hfd ▸ nofun
      exact hcopy.heldByNoOther hvalid ho' rfl call hfd
  · cases hcopies

theorem copyPreserves_iff (hstep : stepAny s e = some s') :
    CopyPreserves s e s' ↔ e.SetsFd s ∧ e.DupsApart s := by
  refine ⟨fun h => ⟨h.setsFd hstep, h.dupsApart hstep⟩, fun ⟨hset, hdups⟩ => ?_⟩
  rcases stepAny_cases hstep with hcall | ⟨id, fd, rfl, -, -⟩
  · exact hcall.copyPreserves hset hdups
  · exact fun _ _ _ _ hcopies => nomatch hcopies

/-- What `::dup` returns was free. -/
theorem available_of_dupFd {p p' : Process} {src fd fd' : Int} (hvalid : 0 ≤ src)
    (h : dupFd p src (some fd) = some (p', fd')) : p.kernel.fds fd = none ∧ fd ≠ -1 := by
  cases dupFd_cases h with
  | invalid _ hneg => omega
  | done _ _ _ _ havail =>
    have hrange := havail.1
    exact ⟨havail.2.2, by omega⟩

/-- Where every descriptor has one holder, `::dup` returns one that has none but
the object it is for. -/
theorem dupsApart_of_sane (h : Sane s) (hstep : step s e = some s') : e.DupsApart s := by
  intro dst src dup o hcopies hsrc
  cases step_called hstep with
  | default | adopt | openFile | create | openFifo | noFifo | moveConstruct | moveSelf | moveAssign
  | destroy => cases hcopies
  | copyConstruct new source call =>
    cases hcopies
    obtain rfl := Option.some.inj (source.symm.trans hsrc)
    rw [if_neg (ne_of_live source new).symm]
    rintro hvalid fd rfl id hne hheld
    obtain ⟨hfree, hnil⟩ := available_of_dupFd hvalid call
    exact h.sound.isOpen hheld hnil hfree
  | copyUnset new source invalid =>
    cases hcopies
    obtain rfl := Option.some.inj (source.symm.trans hsrc)
    rw [if_neg (ne_of_live source new).symm]
    exact fun hvalid => (Int.not_lt.mpr hvalid invalid).elim
  | @copySelf a _ o₁ live =>
    cases hcopies
    obtain rfl := Option.some.inj (live.symm.trans hsrc)
    have hheld := held_of_live live
    rw [if_pos rfl]
    refine (h.held_cases hheld).imp_right fun hvalid => ?_
    have hnil : o₁.fd ≠ -1 := by omega
    exact ⟨hvalid, Option.isSome_iff_ne_none.mpr (h.sound.isOpen hheld hnil),
      fun id hne hother => hne (h.sound.apart hother hheld hnil)⟩
  | @copyAssign _ _ _ d o₁ p fd' dest source ne call =>
    cases hcopies
    obtain rfl := Option.some.inj (source.symm.trans hsrc)
    rw [if_neg ne]
    rintro hvalid fd rfl id hne hheld
    obtain ⟨hfree, hnil⟩ := available_of_dupFd hvalid call
    obtain ⟨f, hf⟩ := Option.ne_none_iff_exists'.mp (h.sound.isOpen hheld hnil)
    -- the only descriptor that was closed is that of the destination
    have hother : fd ≠ d.fd := fun heq =>
      hne (h.sound.apart hheld ((held_of_live dest).trans (congrArg some heq.symm)) hnil)
    cases hfree.symm.trans (closeFd_keeps s.process d.fd fd f hf hother).1

variable {limit capacity : Nat} {files : Int → Option Nat} {es : List Event}

/-- If every copy so far has set its descriptor, every descriptor has one holder. -/
theorem run_sane
    (hset : (objects limit capacity files).EveryStep (fun s e _ => e.SetsFd s) es)
    (hrun : (objects limit capacity files).run es = some s) : Sane s :=
  (objects limit capacity files).run_invariant_of_every sane_init
    (fun h hset hstep => h.step hstep hset) hset hrun

/-- In a run every copy preserves its source iff none of them leaves an
uninitialised descriptor (a copy construction of an invalid `File` finds `-1` in
the memory of the copy) and none is given a descriptor that another object
holds. Objects that have their descriptors to themselves are never given one. -/
theorem copies_preserve_iff (limit capacity : Nat) (files : Int → Option Nat) (es : List Event) :
    ((anyObjects limit capacity files).EveryStep CopyPreserves es ↔
      (anyObjects limit capacity files).EveryStep (fun s e _ => e.SetsFd s ∧ e.DupsApart s) es) ∧
    ((objects limit capacity files).EveryStep CopyPreserves es ↔
      (objects limit capacity files).EveryStep (fun s e _ => e.SetsFd s) es) := by
  refine ⟨(anyObjects limit capacity files).everyStep_congr copyPreserves_iff es, ?_⟩
  constructor
  · intro hevery es₁ e es₂ s₁ s₂ heq hs₁ hstep
    exact (hevery es₁ e es₂ s₁ s₂ heq hs₁ hstep).setsFd (stepAny_of_step hstep)
  · rintro hevery es₁ e es₂ s₁ s₂ rfl hs₁ hstep
    have hsane := run_sane hevery.of_append hs₁
    exact (copyPreserves_iff (stepAny_of_step hstep)).mpr
      ⟨hevery es₁ e es₂ s₁ s₂ rfl hs₁ hstep, dupsApart_of_sane hsane hstep⟩

/-- A copy of `File()` that finds `3` in its memory is valid, and its destructor
closes the read end of a pipe. -/
theorem copy_closes_pipe :
    ∃ s s' s'', (objects 8 16 fun _ => none).run
        [.create 0 1 (some (3, 4)), .default 2 .file .read] = some s ∧
      step s (.copyConstruct 3 2 none 3) = some s' ∧
      ¬ CopyPreserves s (.copyConstruct 3 2 none 3) s' ∧
      step s' (.destroy 3) = some s'' ∧
      (s''.live 0).map Object.fd = some 3 ∧ s''.process.kernel.fds 3 = none := by
  have hsome : ((objects 8 16 fun _ => none).run
      [.create 0 1 (some (3, 4)), .default 2 .file .read]).bind (fun s =>
        (step s (.copyConstruct 3 2 none 3)).bind fun s' =>
          (step s' (.destroy 3)).map fun s'' =>
            (s.live 2, (s'.live 3).map Object.fd, (s''.live 0).map Object.fd,
              s''.process.kernel.fds 3)) =
      some (some (.file {}), some 3, some 3, none) := by
    decide +kernel
  obtain ⟨s, hs, hsome⟩ := Option.bind_eq_some_iff.mp hsome
  obtain ⟨s', hs', hsome⟩ := Option.bind_eq_some_iff.mp hsome
  obtain ⟨s'', hs'', hfields⟩ := Option.map_eq_some_iff.mp hsome
  simp only [Prod.mk.injEq] at hfields
  obtain ⟨hsrc, hcopy, hpipe, hclosed⟩ := hfields
  refine ⟨s, s', s'', hs, hs', fun h => ?_, hs'', hpipe, hclosed⟩
  obtain ⟨o', ho', hof⟩ := h 3 2 none _ rfl hsrc fun _ hvalid => absurd hvalid (by decide)
  rw [ho', Option.map_some, hof.invalid (by decide)] at hcopy
  cases hcopy

end Rix.Ipc.Objects
