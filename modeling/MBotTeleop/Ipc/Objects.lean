-- SUMMARY: File, Pipe and Fifo objects: their special member functions, and a process that uses any number of them.
import MBotTeleop.Ipc.Pipe
import MBotTeleop.Lib.Ledger
import MBotTeleop.Lib.Machine

/-!
# File, Pipe and Fifo objects

Every special member function closes, duplicates or hands over descriptors by
itself. Where the kernel decides what a call returns, the result is a parameter,
and a member function is `none` where the kernel cannot return it.
-/

namespace Rix.Ipc.Objects

/-- `Fifo::Mode` -/
inductive Mode where
  | write
  | read
  deriving DecidableEq, Repr

/-- `File` -/
structure File where
  /-- `fd_`, which is `-1` in an invalid object. -/
  fd : Int := -1
  deriving DecidableEq, Repr

/-- `Fifo`. Its default constructor leaves `mode_` as it is. -/
structure Fifo where
  fd : Int := -1
  mode : Mode
  pathname : String := ""
  deriving DecidableEq, Repr

-- ---------------------------------------------------------------------------
-- System calls
-- ---------------------------------------------------------------------------

/-- The kernel, as the objects have used it. -/
structure Process where
  kernel : Kernel
  /-- The descriptors that were opened and closed. -/
  ledger : Ledger Int := {}
  /-- The pathname and the mode of the `Fifo` that opened a file. -/
  fifos : Nat → Option (String × Mode) := fun _ => none

namespace Process

/-- `::close` -/
def close (p : Process) (fd : Int) : Process :=
  { p with kernel := p.kernel.close fd, ledger := p.ledger.release fd }

/-- `::dup` -/
def dup (p : Process) (fd : Int) : Option Int → Option (Process × Int)
  | none => some (p, -1)
  | some fd' =>
    if (p.kernel.fds fd).isSome ∧ p.kernel.Available fd' then
      some ({ p with kernel := p.kernel.dup fd fd', ledger := p.ledger.issue fd' }, fd')
    else
      none

/-- `::pipe` -/
def pipe (p : Process) : Option (Int × Int) → Option Process
  | none => some p
  | some (r, w) =>
    if p.kernel.Free r w then
      some { p with kernel := p.kernel.pipe r w, ledger := (p.ledger.issue r).issue w }
    else
      none

/-- `::open`, which returns a descriptor for a file of its own. -/
def openPath (p : Process) (nonblocking : Bool) (opener : Option (String × Mode)) :
    Option (Int × Nat) → Option (Process × Int)
  | none => some (p, -1)
  | some (fd, n) =>
    if p.kernel.Available fd ∧ p.kernel.isOpen (.other n) = false then
      some ({ kernel := { p.kernel with
                fds := Function.update p.kernel.fds fd (some (.other n))
                nonblock := Function.update p.kernel.nonblock (.other n) nonblocking }
              ledger := p.ledger.issue fd
              fifos := Function.update p.fifos n opener }, fd)
    else
      none

end Process

/-- `if (fd_ > 0) { ::close(fd_); fd_ = -1; }` -/
def closeFd (p : Process) (fd : Int) : Process × Int :=
  if 0 < fd then (p.close fd, -1) else (p, fd)

/-- `if (other.fd_ >= 0) fd_ = ::dup(other.fd_); else fd_ = -1;` -/
def dupFd (p : Process) (fd : Int) (dup : Option Int) : Option (Process × Int) :=
  if 0 ≤ fd then p.dup fd dup else some (p, -1)

-- ---------------------------------------------------------------------------
-- File
-- ---------------------------------------------------------------------------

namespace File

/-- `File::File(std::string pathname, int creation_flags, mode_t mode)` -/
def construct (p : Process) (nonblocking : Bool) (opened : Option (Int × Nat)) :
    Option (Process × File) :=
  (p.openPath nonblocking none opened).map fun r => (r.1, { fd := r.2 })

/-- `File::File(const File &src)`, where `fd_` is `uninit` until it is set. -/
def copyConstruct (p : Process) (src : File) (dup : Option Int) (uninit : Int) :
    Option (Process × File) :=
  if 0 ≤ src.fd then (p.dup src.fd dup).map fun r => (r.1, { fd := r.2 })
  else some (p, { fd := uninit })

/-- `File::operator=(const File &src)` for another object. -/
def copyAssign (p : Process) (dst src : File) (dup : Option Int) : Option (Process × File) :=
  (dupFd (closeFd p dst.fd).1 src.fd dup).map fun r => (r.1, { fd := r.2 })

/-- `File::File(File &&src)`: the new object, and what is left in `src`. -/
def moveConstruct (src : File) : File × File := ({ fd := src.fd }, { fd := -1 })

/-- `File::operator=(File &&src)` for another object. -/
def moveAssign (p : Process) (dst src : File) : Process × File × File :=
  let (p, fd) := closeFd p dst.fd
  (p, { fd := src.fd }, { fd := fd })

/-- `File::operator=(File &&src)` for the object itself. -/
def moveAssignSelf (p : Process) (f : File) : Process × File :=
  let (p, fd) := closeFd p f.fd
  (p, { fd := fd })

/-- `File::~File()`, and the destructors of the derived classes. -/
def destroy (p : Process) (fd : Int) : Process := (closeFd p fd).1

end File

-- ---------------------------------------------------------------------------
-- Pipe
-- ---------------------------------------------------------------------------

namespace Pipe

/-- `Pipe::create` -/
def create (p : Process) (pipe : Option (Int × Int)) : Option (Process × Pipe × Pipe) :=
  (p.pipe pipe).map fun p =>
    match pipe with
    | none => (p, {}, {})
    | some (r, w) => (p, { fd := r, readEnd := true }, { fd := w, readEnd := false })

def copyConstruct (p : Process) (src : Pipe) (dup : Option Int) : Option (Process × Pipe) :=
  (dupFd p src.fd dup).map fun r => (r.1, { fd := r.2, readEnd := src.readEnd })

def copyAssign (p : Process) (dst src : Pipe) (dup : Option Int) : Option (Process × Pipe) :=
  (dupFd (closeFd p dst.fd).1 src.fd dup).map fun r => (r.1, { fd := r.2, readEnd := src.readEnd })

def moveConstruct (src : Pipe) : Pipe × Pipe :=
  ({ fd := src.fd, readEnd := src.readEnd }, { src with fd := -1 })

def moveAssign (p : Process) (dst src : Pipe) : Process × Pipe × Pipe :=
  let (p, fd) := closeFd p dst.fd
  (p, { fd := src.fd, readEnd := src.readEnd }, { src with fd := fd })

def moveAssignSelf (p : Process) (f : Pipe) : Process × Pipe :=
  let (p, fd) := closeFd p f.fd
  (p, { fd := fd, readEnd := if 0 < f.fd then false else f.readEnd })

end Pipe

-- ---------------------------------------------------------------------------
-- Fifo
-- ---------------------------------------------------------------------------

/-- How `::mkfifo` returns. -/
inductive Mkfifo where
  | made
  /-- `-1` with `EEXIST` -/
  | exists
  | failed
  deriving DecidableEq, Repr

namespace Fifo

/-- `Fifo::Fifo(const std::string &pathname, Mode mode, bool nonblocking)` -/
def construct (p : Process) (pathname : String) (mode : Mode) (nonblocking : Bool)
    (mkfifo : Mkfifo) (opened : Option (Int × Nat)) : Option (Process × Fifo) :=
  if mkfifo = .failed then some (p, { fd := -1, mode := mode, pathname := pathname })
  else
    (p.openPath nonblocking (some (pathname, mode)) opened).map fun r =>
      (r.1, { fd := r.2, mode := mode, pathname := pathname })

def copyConstruct (p : Process) (src : Fifo) (dup : Option Int) : Option (Process × Fifo) :=
  (dupFd p src.fd dup).map fun r =>
    (r.1, { fd := r.2, mode := src.mode, pathname := src.pathname })

def copyAssign (p : Process) (dst src : Fifo) (dup : Option Int) : Option (Process × Fifo) :=
  (dupFd (closeFd p dst.fd).1 src.fd dup).map fun r =>
    (r.1, { fd := r.2, mode := src.mode, pathname := src.pathname })

/-- A string that was moved from holds `left`. -/
def moveConstruct (src : Fifo) (left : String) : Fifo × Fifo :=
  ({ fd := src.fd, mode := src.mode, pathname := src.pathname },
    { fd := -1, mode := src.mode, pathname := left })

def moveAssign (p : Process) (dst src : Fifo) (left : String) : Process × Fifo × Fifo :=
  let (p, fd) := closeFd p dst.fd
  (p, { fd := src.fd, mode := src.mode, pathname := src.pathname },
    { fd := fd, mode := src.mode, pathname := left })

def moveAssignSelf (p : Process) (f : Fifo) (left : String) : Process × Fifo :=
  let (p, fd) := closeFd p f.fd
  (p, { fd := fd, mode := f.mode, pathname := left })

end Fifo

-- ---------------------------------------------------------------------------
-- Objects of any class
-- ---------------------------------------------------------------------------

inductive Object where
  | file (f : File)
  | pipe (f : Pipe)
  | fifo (f : Fifo)
  deriving DecidableEq, Repr

inductive Class where
  | file
  | pipe
  | fifo
  deriving DecidableEq, Repr

namespace Object

def fd : Object → Int
  | file f => f.fd
  | pipe f => f.fd
  | fifo f => f.fd

def cls : Object → Class
  | file _ => .file
  | pipe _ => .pipe
  | fifo _ => .fifo

/-- `ok() const` -/
def ok (o : Object) : Bool := 0 ≤ o.fd

/-- `File()`, `Pipe()` and `Fifo()`, which finds `mode` in its `mode_`. -/
def default (mode : Mode) : Class → Object
  | .file => file {}
  | .pipe => pipe {}
  | .fifo => fifo { mode := mode }

def copyConstruct (p : Process) (dup : Option Int) (uninit : Int) : Object → Option (Process × Object)
  | file src => (File.copyConstruct p src dup uninit).map fun r => (r.1, file r.2)
  | pipe src => (Pipe.copyConstruct p src dup).map fun r => (r.1, pipe r.2)
  | fifo src => (Fifo.copyConstruct p src dup).map fun r => (r.1, fifo r.2)

def copyAssign (p : Process) (dup : Option Int) : Object → Object → Option (Process × Object)
  | file dst, file src => (File.copyAssign p dst src dup).map fun r => (r.1, file r.2)
  | pipe dst, pipe src => (Pipe.copyAssign p dst src dup).map fun r => (r.1, pipe r.2)
  | fifo dst, fifo src => (Fifo.copyAssign p dst src dup).map fun r => (r.1, fifo r.2)
  | _, _ => none

def moveConstruct (left : String) : Object → Object × Object
  | file src => let r := File.moveConstruct src; (file r.1, file r.2)
  | pipe src => let r := Pipe.moveConstruct src; (pipe r.1, pipe r.2)
  | fifo src => let r := Fifo.moveConstruct src left; (fifo r.1, fifo r.2)

def moveAssign (p : Process) (left : String) : Object → Object → Option (Process × Object × Object)
  | file dst, file src => let r := File.moveAssign p dst src; some (r.1, file r.2.1, file r.2.2)
  | pipe dst, pipe src => let r := Pipe.moveAssign p dst src; some (r.1, pipe r.2.1, pipe r.2.2)
  | fifo dst, fifo src => let r := Fifo.moveAssign p dst src left; some (r.1, fifo r.2.1, fifo r.2.2)
  | _, _ => none

def moveAssignSelf (p : Process) (left : String) : Object → Process × Object
  | file f => let r := File.moveAssignSelf p f; (r.1, file r.2)
  | pipe f => let r := Pipe.moveAssignSelf p f; (r.1, pipe r.2)
  | fifo f => let r := Fifo.moveAssignSelf p f left; (r.1, fifo r.2)

end Object

-- ---------------------------------------------------------------------------
-- Runs
-- ---------------------------------------------------------------------------

structure State where
  process : Process
  live : Nat → Option Object := fun _ => none
  /-- The objects there have been. -/
  ids : List Nat := []

def State.put (s : State) (id : Nat) (o : Object) : State :=
  { s with live := Function.update s.live id (some o), ids := id :: s.ids }

/-- The calls on the objects, with what the kernel returns. -/
inductive Event where
  | default (id : Nat) (cls : Class) (mode : Mode)
  /-- `File(int fd)` -/
  | adopt (id : Nat) (fd : Int)
  | openFile (id : Nat) (nonblocking : Bool) (opened : Option (Int × Nat))
  | create (id₀ id₁ : Nat) (pipe : Option (Int × Int))
  | openFifo (id : Nat) (pathname : String) (mode : Mode) (nonblocking : Bool) (mkfifo : Mkfifo)
    (opened : Option (Int × Nat))
  | copyConstruct (id src : Nat) (dup : Option Int) (uninit : Int)
  | copyAssign (dst src : Nat) (dup : Option Int)
  | moveConstruct (id src : Nat) (left : String)
  | moveAssign (dst src : Nat) (left : String)
  | destroy (id : Nat)
  deriving DecidableEq, Repr

/-- The descriptor is open, and no object holds it. -/
def State.Adoptable (s : State) (fd : Int) : Prop :=
  (s.process.kernel.fds fd).isSome ∧ ∀ id ∈ s.ids, (s.live id).map Object.fd ≠ some fd

instance (s : State) (fd : Int) : Decidable (s.Adoptable fd) := inferInstanceAs (Decidable (_ ∧ _))

/-- A constructor makes an object where there was none; the other members are
called on objects that live. `File(int fd)` is called with `-1` or to take over
a descriptor. -/
def step (s : State) : Event → Option State
  | .default id cls mode =>
    if s.live id = none then some (s.put id (.default mode cls)) else none
  | .adopt id fd =>
    if s.live id = none ∧ (fd = -1 ∨ s.Adoptable fd) then some (s.put id (.file { fd := fd }))
    else none
  | .openFile id nonblocking opened =>
    if s.live id = none then
      (File.construct s.process nonblocking opened).map fun r =>
        { s with process := r.1 }.put id (.file r.2)
    else
      none
  | .create id₀ id₁ pipe =>
    if s.live id₀ = none ∧ s.live id₁ = none ∧ id₀ ≠ id₁ then
      (Pipe.create s.process pipe).map fun r =>
        ({ s with process := r.1 }.put id₀ (.pipe r.2.1)).put id₁ (.pipe r.2.2)
    else
      none
  | .openFifo id pathname mode nonblocking mkfifo opened =>
    if s.live id = none then
      (Fifo.construct s.process pathname mode nonblocking mkfifo opened).map fun r =>
        { s with process := r.1 }.put id (.fifo r.2)
    else
      none
  | .copyConstruct id src dup uninit =>
    match s.live id, s.live src with
    | none, some o =>
      (o.copyConstruct s.process dup uninit).map fun r => { s with process := r.1 }.put id r.2
    | _, _ => none
  | .copyAssign dst src dup =>
    match s.live dst, s.live src with
    | some d, some o =>
      -- `this == &other`
      if dst = src then some s
      else (d.copyAssign s.process dup o).map fun r => { s with process := r.1 }.put dst r.2
    | _, _ => none
  | .moveConstruct id src left =>
    match s.live id, s.live src with
    | none, some o =>
      let r := o.moveConstruct left
      some ((s.put id r.1).put src r.2)
    | _, _ => none
  | .moveAssign dst src left =>
    match s.live dst, s.live src with
    | some d, some o =>
      if dst = src then
        let r := d.moveAssignSelf s.process left
        some ({ s with process := r.1 }.put dst r.2)
      else
        (d.moveAssign s.process left o).map fun r =>
          ({ s with process := r.1 }.put dst r.2.1).put src r.2.2
    | _, _ => none
  | .destroy id =>
    match s.live id with
    | some o => some { s with
        process := File.destroy s.process o.fd
        live := Function.update s.live id none }
    | none => none

/-- A process without objects, with the descriptors `files` open, whose objects
have their descriptors to themselves: `File(int fd)` is not called with one that
another object holds, or that is not open. -/
def objects (limit capacity : Nat) (files : Int → Option Nat) : Machine State Event where
  init := { process := { kernel := .initial limit capacity files } }
  step := step

/-- A call where `File(int fd)` takes any number, as the constructor does. -/
def stepAny (s : State) : Event → Option State
  | .adopt id fd => if s.live id = none then some (s.put id (.file { fd := fd })) else none
  | e => step s e

/-- The same process with no promise about `File(int fd)`: two objects may hold
one descriptor, and an object may hold one that was closed. -/
def anyObjects (limit capacity : Nat) (files : Int → Option Nat) : Machine State Event where
  init := (objects limit capacity files).init
  step := stepAny

-- ---------------------------------------------------------------------------
-- What the members do with descriptors
-- ---------------------------------------------------------------------------

/-- The same object with another descriptor. -/
def Object.withFd (o : Object) (fd : Int) : Object :=
  match o with
  | file _ => file { fd := fd }
  | pipe f => pipe { f with fd := fd }
  | fifo f => fifo { f with fd := fd }

@[simp] theorem Object.withFd_fd (o : Object) (fd : Int) : (o.withFd fd).fd = fd := by
  cases o <;> rfl

@[simp] theorem Object.withFd_cls (o : Object) (fd : Int) : (o.withFd fd).cls = o.cls := by
  cases o <;> rfl

@[simp] theorem Object.default_cls (mode : Mode) (cls : Class) :
    (Object.default mode cls).cls = cls := by
  cases cls <;> rfl

@[simp] theorem Object.default_fd (mode : Mode) (cls : Class) : (Object.default mode cls).fd = -1 := by
  cases cls <;> rfl

variable {p p' : Process} {o o' d d' : Object}

/-- A copy duplicates the descriptor, but for a copy of an invalid `File`. -/
theorem Object.copyConstruct_cases {dup : Option Int} {uninit : Int}
    (h : o.copyConstruct p dup uninit = some (p', o')) :
    (∃ fd, dupFd p o.fd dup = some (p', fd) ∧ o' = o.withFd fd) ∨
      ∃ f, o = .file f ∧ f.fd < 0 ∧ p' = p ∧ o' = .file { fd := uninit } := by
  cases o with
  | file src =>
    simp only [copyConstruct, File.copyConstruct] at h
    split at h
    · rename_i hvalid
      simp only [Option.map_map, Option.map_eq_some_iff, Function.comp_apply, Prod.mk.injEq] at h
      obtain ⟨⟨q, fd⟩, hdup, rfl, rfl⟩ := h
      exact .inl ⟨fd, (if_pos hvalid).trans hdup, rfl⟩
    · cases h
      exact .inr ⟨src, rfl, by omega, rfl, rfl⟩
  | pipe src =>
    simp only [copyConstruct, Pipe.copyConstruct, Option.map_map, Option.map_eq_some_iff,
      Function.comp_apply, Prod.mk.injEq] at h
    obtain ⟨⟨q, fd⟩, hdup, rfl, rfl⟩ := h
    exact .inl ⟨fd, hdup, rfl⟩
  | fifo src =>
    simp only [copyConstruct, Fifo.copyConstruct, Option.map_map, Option.map_eq_some_iff,
      Function.comp_apply, Prod.mk.injEq] at h
    obtain ⟨⟨q, fd⟩, hdup, rfl, rfl⟩ := h
    exact .inl ⟨fd, hdup, rfl⟩

/-- A copy assignment gives the descriptor up and duplicates the other. -/
theorem Object.copyAssign_cases {dup : Option Int} (h : d.copyAssign p dup o = some (p', d')) :
    ∃ fd, dupFd (closeFd p d.fd).1 o.fd dup = some (p', fd) ∧ d' = o.withFd fd := by
  cases d <;> cases o <;> simp only [copyAssign] at h
  case file.file dst src =>
    simp only [File.copyAssign, Option.map_map, Option.map_eq_some_iff, Function.comp_apply,
      Prod.mk.injEq] at h
    obtain ⟨⟨q, fd⟩, hdup, rfl, rfl⟩ := h
    exact ⟨fd, hdup, rfl⟩
  case pipe.pipe dst src =>
    simp only [Pipe.copyAssign, Option.map_map, Option.map_eq_some_iff, Function.comp_apply,
      Prod.mk.injEq] at h
    obtain ⟨⟨q, fd⟩, hdup, rfl, rfl⟩ := h
    exact ⟨fd, hdup, rfl⟩
  case fifo.fifo dst src =>
    simp only [Fifo.copyAssign, Option.map_map, Option.map_eq_some_iff, Function.comp_apply,
      Prod.mk.injEq] at h
    obtain ⟨⟨q, fd⟩, hdup, rfl, rfl⟩ := h
    exact ⟨fd, hdup, rfl⟩
  all_goals cases h

/-- A move takes the whole object over. -/
theorem Object.moveConstruct_eq (left : String) (o : Object) :
    (o.moveConstruct left).1 = o ∧ (o.moveConstruct left).2.fd = -1 ∧
      (o.moveConstruct left).2.cls = o.cls := by
  cases o <;> exact ⟨rfl, rfl, rfl⟩

theorem Object.moveAssign_cases {left : String} (h : d.moveAssign p left o = some (p', d', o')) :
    p' = (closeFd p d.fd).1 ∧ d' = o ∧ o'.fd = (closeFd p d.fd).2 ∧ o'.cls = o.cls := by
  cases d <;> cases o <;> cases h <;> exact ⟨rfl, rfl, rfl, rfl⟩

theorem Object.moveAssignSelf_eq (p : Process) (left : String) (o : Object) :
    (o.moveAssignSelf p left).1 = (closeFd p o.fd).1 ∧
      (o.moveAssignSelf p left).2.fd = (closeFd p o.fd).2 ∧
      (o.moveAssignSelf p left).2.cls = o.cls := by
  cases o <;> exact ⟨rfl, rfl, rfl⟩

/-- What a call does with the descriptors and the objects. -/
inductive Called (s : State) : Event → State → Prop
  | default {id : Nat} {cls : Class} {mode : Mode} (new : s.live id = none) :
    Called s (.default id cls mode) (s.put id (.default mode cls))
  | adopt {id : Nat} {fd : Int} (new : s.live id = none) (valid : fd = -1 ∨ s.Adoptable fd) :
    Called s (.adopt id fd) (s.put id (.file { fd := fd }))
  | openFile {id : Nat} {nonblocking : Bool} {opened : Option (Int × Nat)} {p : Process} {fd : Int}
    (new : s.live id = none) (call : s.process.openPath nonblocking none opened = some (p, fd)) :
    Called s (.openFile id nonblocking opened)
      ({ s with process := p }.put id (.file { fd := fd }))
  | create {id₀ id₁ : Nat} {pipe : Option (Int × Int)} {p : Process} {readEnd writeEnd : Pipe}
    (new₀ : s.live id₀ = none) (new₁ : s.live id₁ = none) (ne : id₀ ≠ id₁)
    (call : Pipe.create s.process pipe = some (p, readEnd, writeEnd)) :
    Called s (.create id₀ id₁ pipe)
      (({ s with process := p }.put id₀ (.pipe readEnd)).put id₁ (.pipe writeEnd))
  | openFifo {id : Nat} {pathname : String} {mode : Mode} {nonblocking : Bool} {mkfifo : Mkfifo}
    {opened : Option (Int × Nat)} {p : Process} {fd : Int} (new : s.live id = none)
    (call : s.process.openPath nonblocking (some (pathname, mode)) opened = some (p, fd)) :
    Called s (.openFifo id pathname mode nonblocking mkfifo opened)
      ({ s with process := p }.put id (.fifo { fd := fd, mode := mode, pathname := pathname }))
  | noFifo {id : Nat} {pathname : String} {mode : Mode} {nonblocking : Bool} {mkfifo : Mkfifo}
    {opened : Option (Int × Nat)} (new : s.live id = none) :
    Called s (.openFifo id pathname mode nonblocking mkfifo opened)
      (s.put id (.fifo { fd := -1, mode := mode, pathname := pathname }))
  | copyConstruct {id src : Nat} {dup : Option Int} {uninit : Int} {o : Object} {p : Process}
    {fd : Int} (new : s.live id = none) (source : s.live src = some o)
    (call : dupFd s.process o.fd dup = some (p, fd)) :
    Called s (.copyConstruct id src dup uninit) ({ s with process := p }.put id (o.withFd fd))
  | copyUnset {id src : Nat} {dup : Option Int} {uninit : Int} {f : File} (new : s.live id = none)
    (source : s.live src = some (.file f)) (invalid : f.fd < 0) :
    Called s (.copyConstruct id src dup uninit) (s.put id (.file { fd := uninit }))
  | copySelf {a : Nat} {dup : Option Int} {o : Object} (live : s.live a = some o) :
    Called s (.copyAssign a a dup) s
  | copyAssign {dst src : Nat} {dup : Option Int} {d o : Object} {p : Process} {fd : Int}
    (dest : s.live dst = some d) (source : s.live src = some o) (ne : dst ≠ src)
    (call : dupFd (closeFd s.process d.fd).1 o.fd dup = some (p, fd)) :
    Called s (.copyAssign dst src dup) ({ s with process := p }.put dst (o.withFd fd))
  | moveConstruct {id src : Nat} {left : String} {o o' : Object} (new : s.live id = none)
    (source : s.live src = some o) (empty : o'.fd = -1) (same : o'.cls = o.cls) :
    Called s (.moveConstruct id src left) ((s.put id o).put src o')
  | moveSelf {a : Nat} {left : String} {d d' : Object} (live : s.live a = some d)
    (closed : d'.fd = (closeFd s.process d.fd).2) (same : d'.cls = d.cls) :
    Called s (.moveAssign a a left)
      ({ s with process := (closeFd s.process d.fd).1 }.put a d')
  | moveAssign {dst src : Nat} {left : String} {d o o' : Object} (dest : s.live dst = some d)
    (source : s.live src = some o) (ne : dst ≠ src) (closed : o'.fd = (closeFd s.process d.fd).2)
    (same : o'.cls = o.cls) :
    Called s (.moveAssign dst src left)
      (({ s with process := (closeFd s.process d.fd).1 }.put dst o).put src o')
  | destroy {a : Nat} {o : Object} (live : s.live a = some o) :
    Called s (.destroy a) { s with
      process := (closeFd s.process o.fd).1
      live := Function.update s.live a none }

theorem step_called {s s' : State} {e : Event} (hstep : step s e = some s') : Called s e s' := by
  cases e with
  | default id cls mode =>
    simp only [step] at hstep
    split at hstep <;> cases hstep
    exact .default ‹_›
  | adopt id fd =>
    simp only [step] at hstep
    split at hstep <;> cases hstep
    rename_i h
    exact .adopt h.1 h.2
  | openFile id nonblocking opened =>
    simp only [step] at hstep
    split at hstep
    · obtain ⟨r, hopen, rfl⟩ := Option.map_eq_some_iff.mp hstep
      obtain ⟨⟨p, fd⟩, hpath, rfl⟩ := Option.map_eq_some_iff.mp hopen
      exact .openFile ‹_› hpath
    · cases hstep
  | create id₀ id₁ pipe =>
    simp only [step] at hstep
    split at hstep
    · rename_i h
      obtain ⟨⟨p, readEnd, writeEnd⟩, hcreate, rfl⟩ := Option.map_eq_some_iff.mp hstep
      exact .create h.1 h.2.1 h.2.2 hcreate
    · cases hstep
  | openFifo id pathname mode nonblocking mkfifo opened =>
    simp only [step] at hstep
    split at hstep
    · obtain ⟨r, hopen, rfl⟩ := Option.map_eq_some_iff.mp hstep
      unfold Fifo.construct at hopen
      split at hopen
      · cases hopen
        exact .noFifo ‹_›
      · obtain ⟨⟨p, fd⟩, hpath, rfl⟩ := Option.map_eq_some_iff.mp hopen
        exact .openFifo ‹_› hpath
    · cases hstep
  | copyConstruct id src dup uninit =>
    simp only [step] at hstep
    split at hstep
    · rename_i o hnew hsrc
      obtain ⟨⟨p, o'⟩, hcopy, rfl⟩ := Option.map_eq_some_iff.mp hstep
      rcases Object.copyConstruct_cases hcopy with ⟨fd, hdup, rfl⟩ | ⟨f, rfl, hinvalid, rfl, rfl⟩
      · exact .copyConstruct hnew hsrc hdup
      · exact .copyUnset hnew hsrc hinvalid
    · cases hstep
  | copyAssign dst src dup =>
    simp only [step] at hstep
    split at hstep
    · rename_i d o hdst hsrc
      split at hstep
      · rename_i heq
        cases hstep
        exact heq ▸ .copySelf hdst
      · obtain ⟨⟨p, d'⟩, hcopy, rfl⟩ := Option.map_eq_some_iff.mp hstep
        obtain ⟨fd, hdup, rfl⟩ := Object.copyAssign_cases hcopy
        exact .copyAssign hdst hsrc ‹_› hdup
    · cases hstep
  | moveConstruct id src left =>
    simp only [step] at hstep
    split at hstep
    · rename_i o hnew hsrc
      cases hstep
      obtain ⟨heq, hempty, hsame⟩ := Object.moveConstruct_eq left o
      rw [heq]
      exact .moveConstruct hnew hsrc hempty hsame
    · cases hstep
  | moveAssign dst src left =>
    simp only [step] at hstep
    split at hstep
    · rename_i d o hdst hsrc
      split at hstep
      · rename_i heq
        cases hstep
        obtain ⟨hprocess, hclosed, hsame⟩ := Object.moveAssignSelf_eq s.process left d
        rw [← heq, hprocess]
        exact .moveSelf hdst hclosed hsame
      · obtain ⟨⟨p, d', o'⟩, hmove, rfl⟩ := Option.map_eq_some_iff.mp hstep
        obtain ⟨rfl, rfl, hclosed, hsame⟩ := Object.moveAssign_cases hmove
        exact .moveAssign hdst hsrc ‹_› hclosed hsame
    · cases hstep
  | destroy id =>
    simp only [step] at hstep
    split at hstep
    · cases hstep
      exact .destroy ‹_›
    · cases hstep

variable {s s' : State} {e : Event}

theorem stepAny_cases (hstep : stepAny s e = some s') :
    Called s e s' ∨ ∃ id fd, e = .adopt id fd ∧ s.live id = none ∧ s' = s.put id (.file { fd := fd }) := by
  cases e with
  | adopt id fd =>
    simp only [stepAny] at hstep
    split at hstep
    · rename_i hnew
      exact .inr ⟨id, fd, rfl, hnew, (Option.some.inj hstep).symm⟩
    · cases hstep
  | default | openFile | create | openFifo | copyConstruct | copyAssign | moveConstruct | moveAssign
  | destroy => exact .inl (step_called hstep)

theorem stepAny_of_step (hstep : step s e = some s') : stepAny s e = some s' := by
  cases e with
  | adopt id fd =>
    simp only [step] at hstep
    split at hstep
    · rename_i hpre
      exact (if_pos hpre.1).trans hstep
    · cases hstep
  | default | openFile | create | openFifo | copyConstruct | copyAssign | moveConstruct | moveAssign
  | destroy => exact hstep

/-- Objects that have their descriptors to themselves are objects. -/
theorem run_any {limit capacity : Nat} {files : Int → Option Nat} {es : List Event}
    (hrun : (objects limit capacity files).run es = some s) :
    (anyObjects limit capacity files).run es = some s := by
  refine (objects limit capacity files).run_invariant
    (I := fun es s => (anyObjects limit capacity files).run es = some s) rfl ?_ hrun
  intro es s e s' _ ih hstep
  exact (Machine.run_concat _).mpr ⟨s, ih, stepAny_of_step hstep⟩

/-! ## The pipes of the signal registry -/

theorem Pipe.create_kernel {pipe : Option (Int × Int)} {r : Process × Pipe × Pipe}
    (h : Pipe.create p pipe = some r) :
    (r.1.kernel, r.2.1, r.2.2) = Rix.Ipc.Pipe.create p.kernel pipe := by
  obtain ⟨q, hq, rfl⟩ := Option.map_eq_some_iff.mp h
  cases pipe with
  | none =>
    cases hq
    rfl
  | some rw =>
    simp only [Process.pipe] at hq
    split at hq <;> cases hq
    rfl

theorem Pipe.moveAssign_kernel (p : Process) (dst src : Pipe) :
    ((Pipe.moveAssign p dst src).1.kernel, (Pipe.moveAssign p dst src).2) =
      Rix.Ipc.Pipe.moveAssign p.kernel dst src := by
  by_cases h : 0 < dst.fd
  · simp [Pipe.moveAssign, Rix.Ipc.Pipe.moveAssign, closeFd, h, Process.close]
  · simp [Pipe.moveAssign, Rix.Ipc.Pipe.moveAssign, closeFd, h]

theorem File.destroy_kernel (p : Process) (f : Pipe) :
    (File.destroy p f.fd).kernel = Rix.Ipc.Pipe.destroy p.kernel f := by
  unfold File.destroy Rix.Ipc.Pipe.destroy closeFd
  split <;> rfl

end Rix.Ipc.Objects
