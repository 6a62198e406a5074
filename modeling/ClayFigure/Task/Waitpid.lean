/-
# Waiting for a child

`kern_waitpid` over the families of tasks: the status a child has left, the memory that is
given back with its slot, and the callers that sleep until a child has died. A call that
blocks goes on, when its task runs again, with the test of its loop.
-/

import ClayFigure.Task.FamilyTree

namespace ClayFigure

open ClayFigure.Math

/-! ## The code -/

/-- `int` and `pid_t`. -/
abbrev CInt : Type := BitVec 32

/-- The words `m[0]` and `m[1]` of a message. -/
structure WaitpidMsg where
  m0 : BitVec 64
  m1 : BitVec 64

namespace WaitpidMsg

/-- The value of type `int` at a word. -/
def readInt (word : BitVec 64) : CInt := word.setWidth 32

/-- An `int` written over the low half of a word. -/
def writeInt (word : BitVec 64) (value : CInt) : BitVec 64 :=
  word &&& 0xffffffff00000000#64 ||| value.setWidth 64

@[simp]
theorem readInt_writeInt (word : BitVec 64) (value : CInt) :
    readInt (writeInt word value) = value := by
  simp [readInt, writeInt]

/-- `IN_KERN_WAITPID_PID`. -/
def inPid (msg : WaitpidMsg) : CInt := readInt msg.m0

/-- `IN_KERN_WAITPID_OPT`. -/
def inOpt (msg : WaitpidMsg) : CInt := readInt msg.m1

/-- `OUT_KERN_WAITPID_STATUS`. -/
def outStatus (msg : WaitpidMsg) : CInt := readInt msg.m0

/-- `OUT_KERN_WAITPID_PID`. -/
def outPid (msg : WaitpidMsg) : CInt := readInt msg.m1

/-- `in_opt & WNOHANG`. -/
def wnohang (msg : WaitpidMsg) : Bool := msg.inOpt &&& 1 ≠ 0

end WaitpidMsg

/-- Where a task is in `kern_waitpid`: in no call, blocked in one, or in its `while (1)`. -/
inductive WaitState
  | idle
  | waiting (msg : WaitpidMsg)
  | looping

/-- What a task leaves to its parent. -/
structure TaskRemains where
  returnStatus : CInt
  kstackBase : Nat
  fxsaveRegion : Nat

/-- The families, the calls of `kern_waitpid` in progress, and the addresses given to `kfree`,
oldest first. -/
structure Procs where
  family : Family
  remains : Slot → TaskRemains
  wait : Slot → WaitState
  kfreed : List Nat

/-- What comes of `kern_waitpid` up to its return or the next `task_block`. -/
inductive WaitOutcome
  | returns (status : SyscallStatus) (msg : WaitpidMsg) (s : Procs)
  | blocks
  | loops

namespace Procs

def setWait (s : Procs) (i : Slot) (w : WaitState) : Procs :=
  { s with wait := Function.update s.wait i w }

def setRemains (s : Procs) (i : Slot) (r : TaskRemains) : Procs :=
  { s with remains := Function.update s.remains i r }

/-- `task_has_exited_child`; `none` is a null dereference. -/
def taskHasExitedChild (s : Procs) (pid : Nat) : Option Bool := do
  let task ← s.family.pidToTask pid
  return !s.family.links.listEmpty task

/-- `task_release_resource`, called by the task in slot `cur`. -/
def taskReleaseResource (s : Procs) (cur : Slot) (pid : Nat) : Option (CInt × Procs) := do
  let task ← s.family.pidToTask pid
  let family ← s.family.taskReleaseResource cur pid
  let kfreed := s.kfreed ++ [(s.remains task).fxsaveRegion, (s.remains task).kstackBase]
  return ((s.remains task).returnStatus, { s with family := family, kfreed := kfreed })

/-- `find_child`. -/
def findChild (s : Procs) (arg : BitVec 64) (child : Slot) : Bool :=
  BitVec.ofNat 32 (s.family.tasks child).pid = arg.setWidth 32

/-- The end of `kern_waitpid`: the reply for `child`. -/
def waitpidReply (s : Procs) (cur child : Slot) (msg : WaitpidMsg) : Option WaitOutcome := do
  let pid := (s.family.tasks child).pid
  let (status, t) ← s.taskReleaseResource cur pid
  return .returns .success
    { m0 := WaitpidMsg.writeInt msg.m0 status
      m1 := WaitpidMsg.writeInt msg.m1 (BitVec.ofNat 32 pid) } t

/-- `kern_waitpid` behind its wait. A named child is looked up by the pid of the caller. -/
def waitpidTake (s : Procs) (cur : Slot) (msg : WaitpidMsg) : Option WaitOutcome :=
  if msg.inPid = -1 then
    match s.family.links.listPop cur with
    | some (.elem child, k) =>
        ({ s with family := { s.family with links := k } } : Procs).waitpidReply cur child msg
    | _ => none
  else do
    let arg := BitVec.ofNat 64 (s.family.tasks cur).pid
    match ← s.family.links.listTraversal cur (s.findChild arg) (numTasks + 1) with
    | none => return .returns .success msg s
    | some child => s.waitpidReply cur child msg

/-- `kern_waitpid` from the test of its loop on. -/
def waitpidLoop (s : Procs) (cur : Slot) (msg : WaitpidMsg) : Option WaitOutcome := do
  if ← s.taskHasExitedChild (s.family.tasks cur).pid then s.waitpidTake cur msg
  else return .blocks

/-- `kern_waitpid`. -/
def kernWaitpid (s : Procs) (cur : Slot) (msg : WaitpidMsg) : Option WaitOutcome := do
  if (s.family.tasks cur).childs = 0 then return .returns .error msg s
  else if !(← s.taskHasExitedChild (s.family.tasks cur).pid) && msg.wnohang then return .loops
  else s.waitpidLoop cur msg

/-- The caller goes on as the outcome says. -/
def afterWait (s : Procs) (cur : Slot) (msg : WaitpidMsg) : WaitOutcome → Procs
  | .returns _ _ t => t.setWait cur .idle
  | .blocks => s.setWait cur (.waiting msg)
  | .loops => s.setWait cur .looping

/-- The fields of the slot that a creation of a task fills. -/
def initRemains (s : Procs) (kstackSize : Nat) (kmallocOk : Bool) (r : TaskRemains) : Procs :=
  match s.family.taskAlloc with
  | some (i, _) =>
      if kstackSize &&& (kstackSize - 1) ≠ 0 then s
      else s.setRemains i (if kmallocOk then { r with returnStatus := 0 } else ⟨0, 0, 0⟩)
  | none => s

end Procs

/-- A step of the task in slot `cur`, or of the scheduler on its behalf. In a creation `r` has
the addresses that `kmalloc` answers. -/
inductive ProcCall
  | taskStart (cur : Slot) (kstackSize : Nat) (kmallocOk : Bool) (r : TaskRemains)
  | procExecute (cur : Slot) (kstackSize : Nat) (kmallocOk : Bool) (r : TaskRemains)
  | taskExit (cur : Slot) (status : CInt)
  | notify (cur : Slot)
  | waitpid (cur : Slot) (msg : WaitpidMsg)
  | wake (cur : Slot)

/-- A step of the families. -/
def Procs.familyCall (s : Procs) (c : FamilyCall) : Option Procs := do
  return { s with family := ← familyStep s.family c }

/-- One step. A task does nothing else while it is in `kern_waitpid`; it may be woken without
need. -/
def procStep (s : Procs) : ProcCall → Option Procs
  | .taskStart cur kstackSize kmallocOk r =>
      match s.wait cur with
      | .idle => (s.initRemains kstackSize kmallocOk r).familyCall
          (.taskStart cur kstackSize kmallocOk)
      | _ => none
  | .procExecute cur kstackSize kmallocOk r =>
      match s.wait cur with
      | .idle => (s.initRemains kstackSize kmallocOk r).familyCall
          (.procExecute cur kstackSize kmallocOk)
      | _ => none
  | .taskExit cur status =>
      match s.wait cur with
      | .idle => (s.setRemains cur { s.remains cur with returnStatus := status }).familyCall
          (.adopt cur)
      | _ => none
  | .notify cur => s.familyCall (.notify cur)
  | .waitpid cur msg =>
      match s.wait cur with
      | .idle =>
          if s.family.Exists cur ∧ s.family.stage cur = .running then do
            return s.afterWait cur msg (← s.kernWaitpid cur msg)
          else none
      | _ => none
  | .wake cur =>
      match s.wait cur with
      | .waiting msg => do return s.afterWait cur msg (← s.waitpidLoop cur msg)
      | _ => none

/-- The runs from a booted table; nobody waits. -/
def procSystem : System Procs ProcCall where
  init s := Booted s.family ∧ ∀ i, s.wait i = .idle
  step s c t := procStep s c = some t

/-! ## What a call has to do -/

namespace Procs

/-- A dead child of the caller that the request asks for. -/
structure Matches (s : Procs) (cur : Slot) (msg : WaitpidMsg) (child : Slot) : Prop where
  alive : s.family.Exists child
  died : s.family.stage child = .died
  ppid : (s.family.tasks child).ppid = (s.family.tasks cur).pid
  pid : msg.inPid = -1 ∨ msg.inPid = BitVec.ofNat 32 (s.family.tasks child).pid

/-- From `s` to `t` the caller has reaped one child, is told its pid and status, and nothing
else has changed. -/
structure Reaped (s t : Procs) (cur child : Slot) (reply : WaitpidMsg) : Prop where
  outPid : reply.outPid = BitVec.ofNat 32 (s.family.tasks child).pid
  outStatus : reply.outStatus = (s.remains child).returnStatus
  unlinked : ∃ used contents, s.family.links.Holds used contents ∧ used cur ∧
    child ∈ contents cur ∧
    t.family.links.Holds used (Function.update contents cur ((contents cur).erase child))
  freed : t.family.tasks child = { s.family.tasks child with pid := pidNoTask }
  kfreed : t.kfreed = s.kfreed ++ [(s.remains child).fxsaveRegion, (s.remains child).kstackBase]
  caller : t.family.tasks cur =
    { s.family.tasks cur with childs := sub64 (s.family.tasks cur).childs 1 }
  others : ∀ i, i ≠ child → i ≠ cur → t.family.tasks i = s.family.tasks i
  stage : t.family.stage = s.family.stage
  remains : t.remains = s.remains
  wait : t.wait = s.wait

/-- A reply of `SYSCALL_SUCCESS` comes with a matching child that has been reaped. -/
def Answers (s : Procs) (cur : Slot) (msg : WaitpidMsg) (outcome : WaitOutcome) : Prop :=
  ∀ reply t, outcome = .returns .success reply t →
    ∃ child, s.Matches cur msg child ∧ s.Reaped t cur child reply

/-- Without a matching child a request with `WNOHANG` is answered at once. -/
def NoHang (s : Procs) (cur : Slot) (msg : WaitpidMsg) (outcome : WaitOutcome) : Prop :=
  msg.wnohang → (∀ child, ¬ s.Matches cur msg child) →
    ∃ status reply t, outcome = .returns status reply t

/-- The task can take the step: to call `kern_waitpid` it runs and is in no call, to go on in
one it has blocked there. -/
def MayStep (s : Procs) : ProcCall → Prop
  | .waitpid cur _ => s.wait cur = .idle ∧ s.family.Exists cur ∧ s.family.stage cur = .running
  | .wake cur => ∃ msg, s.wait cur = .waiting msg
  | c => ∃ t, procStep s c = some t

/-- The step of `kern_waitpid` does what is asked for. -/
def CallRight (s : Procs) : ProcCall → Prop
  | .waitpid cur msg => ∃ outcome, s.kernWaitpid cur msg = some outcome ∧
      s.Answers cur msg outcome ∧ s.NoHang cur msg outcome
  | .wake cur => ∀ msg, s.wait cur = .waiting msg →
      ∃ outcome, s.waitpidLoop cur msg = some outcome ∧ s.Answers cur msg outcome
  | _ => True

/-- The call takes none of the two ways that go wrong: the lookup of a named child, and the
`while (1)` for a request that must not block. -/
def Served (s : Procs) : ProcCall → Prop
  | .waitpid cur msg => (s.family.tasks cur).childs = 0 ∨
      if s.family.links.listEmpty cur then msg.wnohang = false else msg.inPid = -1
  | .wake cur => ∀ msg, s.wait cur = .waiting msg →
      s.family.links.listEmpty cur = true ∨ msg.inPid = -1
  | _ => True

/-! ## What the loop does -/

@[simp]
theorem family_initRemains (s : Procs) (kstackSize : Nat) (kmallocOk : Bool) (r : TaskRemains) :
    (s.initRemains kstackSize kmallocOk r).family = s.family := by
  unfold initRemains
  split
  · split <;> rfl
  · rfl

@[simp]
theorem wait_initRemains (s : Procs) (kstackSize : Nat) (kmallocOk : Bool) (r : TaskRemains) :
    (s.initRemains kstackSize kmallocOk r).wait = s.wait := by
  unfold initRemains
  split
  · split <;> rfl
  · rfl

/-- The state after the caller has taken `child` out of its list. -/
def taken (s : Procs) (cur child : Slot) (k : Heap Slot Slot) : Procs :=
  { s with
    family := s.family.reaped cur child k
    kfreed := s.kfreed ++ [(s.remains child).fxsaveRegion, (s.remains child).kstackBase] }

/-- The reply for `child`. -/
def reply (s : Procs) (child : Slot) (msg : WaitpidMsg) : WaitpidMsg where
  m0 := WaitpidMsg.writeInt msg.m0 (s.remains child).returnStatus
  m1 := WaitpidMsg.writeInt msg.m1 (BitVec.ofNat 32 (s.family.tasks child).pid)

/-- The three ways from the test of the loop on. -/
inductive Waited (s : Procs) (used : Slot → Prop) (contents : Slot → List Slot) (cur : Slot)
    (msg : WaitpidMsg) : WaitOutcome → Prop
  | blocks (hnil : contents cur = []) : Waited s used contents cur msg .blocks
  | takes {child rest k} (hcons : contents cur = child :: rest) (hpid : msg.inPid = -1)
      (hlists : k.Holds used (Function.update contents cur rest)) :
      Waited s used contents cur msg
        (.returns .success (s.reply child msg) (s.taken cur child k))
  | misses (hcons : contents cur ≠ []) (hpid : msg.inPid ≠ -1) :
      Waited s used contents cur msg (.returns .success msg s)

section

variable {s : Procs} {used : Slot → Prop} {contents : Slot → List Slot} {cur : Slot}

theorem taskHasExitedChild_eq (hs : FamilyInv s.family used contents)
    (hcur : s.family.Exists cur) :
    s.taskHasExitedChild (s.family.tasks cur).pid = some (!s.family.links.listEmpty cur) := by
  rw [hs.pid cur hcur]
  simp [taskHasExitedChild, Family.pidToTask_coe hcur]

/-- A child that has died is another task than its parent. -/
theorem child_ne (hs : FamilyInv s.family used contents) (hcur : s.family.Exists cur)
    (hrun : s.family.stage cur = .running) {child : Slot} (hchild : child ∈ contents cur) :
    child ≠ cur := by
  have hdied := ((hs.member cur (hs.used_of_exists cur hcur) child).mp hchild).2.2.1
  intro heq
  rw [heq, hrun] at hdied
  cases hdied

/-- `find_child` is given the pid of the caller, which no child has. -/
theorem findChild_eq_false (hs : FamilyInv s.family used contents) (hcur : s.family.Exists cur)
    (hrun : s.family.stage cur = .running) {child : Slot} (hchild : child ∈ contents cur) :
    s.findChild (BitVec.ofNat 64 (s.family.tasks cur).pid) child = false := by
  have hexist := ((hs.member cur (hs.used_of_exists cur hcur) child).mp hchild).1
  have hne := child_ne hs hcur hrun hchild
  have hlt : (child : Nat) < 4096 := child.isLt
  have hlt' : (cur : Nat) < 4096 := cur.isLt
  rw [findChild, hs.pid child hexist, hs.pid cur hcur, decide_eq_false_iff_not]
  intro heq
  have hnat := congrArg BitVec.toNat heq
  simp only [BitVec.toNat_ofNat, BitVec.toNat_setWidth] at hnat
  exact hne (Fin.ext (by omega))

theorem waitpidReply_eq (hs : FamilyInv s.family used contents) (hcur : s.family.Exists cur)
    (hrun : s.family.stage cur = .running) {child : Slot} (hchild : child ∈ contents cur)
    (k : Heap Slot Slot) (msg : WaitpidMsg) :
    ({ s with family := { s.family with links := k } } : Procs).waitpidReply cur child msg =
      some (.returns .success (s.reply child msg) (s.taken cur child k)) := by
  have hmember := (hs.member cur (hs.used_of_exists cur hcur) child).mp hchild
  have hne := child_ne hs hcur hrun hchild
  have hpid : ({ s.family with links := k } : Family).pidToTask child = some child :=
    Family.pidToTask_coe (s := { s.family with links := k }) hmember.1
  have hrelease := Family.taskReleaseResource_eq (s := { s.family with links := k }) hcur
    hmember.1 (Ne.symm hne) hmember.2.2.2
  simp only [waitpidReply, taskReleaseResource, hs.pid child hmember.1, hpid, hrelease,
    Option.bind_eq_bind, Option.bind_some, Option.pure_def, reply, taken]
  rfl

theorem waitpidLoop_spec (hs : FamilyInv s.family used contents) (hcur : s.family.Exists cur)
    (hrun : s.family.stage cur = .running) (msg : WaitpidMsg) :
    ∃ outcome, s.waitpidLoop cur msg = some outcome ∧
      s.Waited used contents cur msg outcome := by
  have hused := hs.used_of_exists cur hcur
  have hempty := hs.lists.listEmpty_iff hused
  cases hxs : contents cur with
  | nil =>
      refine ⟨.blocks, ?_, .blocks hxs⟩
      simp [waitpidLoop, taskHasExitedChild_eq hs hcur, hempty.mpr hxs]
  | cons child rest =>
      have hfull : s.family.links.listEmpty cur = false := by
        rw [Bool.eq_false_iff, ne_eq, hempty, hxs]
        exact List.cons_ne_nil child rest
      have hchild : child ∈ contents cur := by
        rw [hxs]
        exact List.mem_cons_self
      by_cases hpid : msg.inPid = -1
      · obtain ⟨k, hpop, hk⟩ := hs.lists.listPop hused hxs
        refine ⟨_, ?_, .takes hxs hpid hk⟩
        rw [← waitpidReply_eq hs hcur hrun hchild k msg]
        simp [waitpidLoop, taskHasExitedChild_eq hs hcur, hfull, waitpidTake, hpid, hpop]
      · refine ⟨_, ?_, .misses (by rw [hxs]; exact List.cons_ne_nil child rest) hpid⟩
        have hlen : (contents cur).length < numTasks + 1 :=
          Nat.lt_succ_of_le (hs.length_contents_le hused)
        have hnone : (contents cur).find?
            (s.findChild (BitVec.ofNat 64 (s.family.tasks cur).pid)) = none := by
          rw [List.find?_eq_none]
          intro i hi
          rw [findChild_eq_false hs hcur hrun hi]
          exact Bool.false_ne_true
        have htraversal := hs.lists.listTraversal hused
          (s.findChild (BitVec.ofNat 64 (s.family.tasks cur).pid)) hlen
        rw [hnone] at htraversal
        have htake : s.waitpidTake cur msg = some (.returns .success msg s) := by
          simp only [waitpidTake, if_neg hpid, htraversal, Option.bind_eq_bind, Option.bind_some,
            Option.pure_def]
        simp [waitpidLoop, taskHasExitedChild_eq hs hcur, hfull, htake]

/-- The child at the front of the list is the one the caller gets. -/
theorem reaped_taken (hs : FamilyInv s.family used contents) (hcur : s.family.Exists cur)
    (hrun : s.family.stage cur = .running) {child : Slot} {rest : List Slot}
    (hcons : contents cur = child :: rest) {k : Heap Slot Slot}
    (hlists : k.Holds used (Function.update contents cur rest)) (msg : WaitpidMsg) :
    s.Reaped (s.taken cur child k) cur child (s.reply child msg) := by
  have hchild : child ∈ contents cur := by
    rw [hcons]
    exact List.mem_cons_self
  have hne := child_ne hs hcur hrun hchild
  constructor
  case outPid => exact WaitpidMsg.readInt_writeInt _ _
  case outStatus => exact WaitpidMsg.readInt_writeInt _ _
  case unlinked =>
    refine ⟨used, contents, hs.lists, hs.used_of_exists cur hcur, hchild, ?_⟩
    rw [hcons, List.erase_cons_head]
    exact hlists
  case freed => exact if_pos rfl
  case kfreed => rfl
  case caller =>
    show (if cur = child then _ else _) = _
    rw [if_neg (Ne.symm hne), if_pos rfl]
  case others =>
    intro i hi hic
    show (if i = child then _ else _) = _
    rw [if_neg hi, if_neg hic]
  case stage => rfl
  case remains => rfl
  case wait => rfl

/-- A reply that leaves everything as it was has reaped nobody. -/
theorem not_reaped_self {child : Slot} {reply : WaitpidMsg} (hexist : s.family.Exists child) :
    ¬ s.Reaped s cur child reply := by
  intro h
  exact hexist (congrArg FamilyTask.pid h.freed)

/-- From the test of the loop on only a named child that could be found goes wrong. -/
theorem Waited.answers_iff (hs : FamilyInv s.family used contents)
    (hcur : s.family.Exists cur) (hrun : s.family.stage cur = .running) {msg : WaitpidMsg}
    {outcome : WaitOutcome} (h : s.Waited used contents cur msg outcome) :
    s.Answers cur msg outcome ↔ contents cur = [] ∨ msg.inPid = -1 := by
  cases h with
  | blocks hnil =>
      refine iff_of_true (fun reply t heq => ?_) (Or.inl hnil)
      cases heq
  | @takes child rest k hcons hpid hlists =>
      refine iff_of_true (fun reply t heq => ?_) (Or.inr hpid)
      cases heq
      have hchild : child ∈ contents cur := by
        rw [hcons]
        exact List.mem_cons_self
      obtain ⟨hexist, -, hdied, hppid⟩ :=
        (hs.member cur (hs.used_of_exists cur hcur) child).mp hchild
      refine ⟨child, ⟨hexist, hdied, ?_, Or.inl hpid⟩, reaped_taken hs hcur hrun hcons hlists msg⟩
      rw [hs.pid cur hcur, hppid]
  | misses hne hpid =>
      refine iff_of_false (fun hanswers => ?_) (not_or.mpr ⟨hne, hpid⟩)
      obtain ⟨child, hmatch, hreaped⟩ := hanswers msg s rfl
      exact not_reaped_self hmatch.alive hreaped

/-- The start of a call, with the two tests before its loop. -/
theorem kernWaitpid_eq (hs : FamilyInv s.family used contents) (hcur : s.family.Exists cur)
    (msg : WaitpidMsg) : s.kernWaitpid cur msg =
      if (s.family.tasks cur).childs = 0 then some (.returns .error msg s)
      else if s.family.links.listEmpty cur = true ∧ msg.wnohang = true then some .loops
      else s.waitpidLoop cur msg := by
  simp only [kernWaitpid, taskHasExitedChild_eq hs hcur, Option.bind_eq_bind, Option.bind_some,
    Option.pure_def, Bool.not_not, Bool.and_eq_true]

/-- A call that starts does what is asked for exactly when it is served. -/
theorem callRight_waitpid_iff (hs : FamilyInv s.family used contents)
    (hcur : s.family.Exists cur) (hrun : s.family.stage cur = .running) (msg : WaitpidMsg) :
    s.CallRight (.waitpid cur msg) ↔ s.Served (.waitpid cur msg) := by
  have hused := hs.used_of_exists cur hcur
  have hempty := hs.lists.listEmpty_iff hused
  have heq := kernWaitpid_eq hs hcur msg
  simp only [CallRight, Served]
  by_cases hchilds : (s.family.tasks cur).childs = 0
  · rw [if_pos hchilds] at heq
    refine iff_of_true ⟨_, heq, fun reply t h => ?_, fun _ _ => ⟨_, _, _, rfl⟩⟩ (Or.inl hchilds)
    cases h
  rw [if_neg hchilds] at heq
  obtain ⟨outcome, hloop, hwaited⟩ := waitpidLoop_spec hs hcur hrun msg
  have hanswers := hwaited.answers_iff hs hcur hrun
  by_cases hnone : s.family.links.listEmpty cur = true
  · have hmatch (child : Slot) : ¬ s.Matches cur msg child := by
      intro h
      have hmem := (hs.member cur hused child).mpr
        ⟨h.alive, hcur, h.died, h.ppid.trans (hs.pid cur hcur)⟩
      rw [hempty.mp hnone] at hmem
      exact List.not_mem_nil hmem
    rw [if_pos hnone]
    cases hhang : msg.wnohang with
    | true =>
        rw [if_pos ⟨hnone, hhang⟩] at heq
        refine iff_of_false ?_ (not_or.mpr ⟨hchilds, by decide⟩)
        rintro ⟨outcome', heq', -, hhangs⟩
        rw [heq] at heq'
        cases heq'
        obtain ⟨status, reply, t, h⟩ := hhangs hhang hmatch
        cases h
    | false =>
        rw [if_neg (fun h => Bool.false_ne_true (hhang ▸ h.2)), hloop] at heq
        refine iff_of_true ⟨outcome, heq, hanswers.mpr (Or.inl (hempty.mp hnone)), fun h => ?_⟩
          (Or.inr rfl)
        rw [hhang] at h
        exact absurd h Bool.false_ne_true
  · rw [if_neg hnone]
    rw [if_neg (fun h => hnone h.1), hloop] at heq
    have hcons : contents cur ≠ [] := fun h => hnone (hempty.mpr h)
    rw [or_iff_right hcons] at hanswers
    constructor
    · rintro ⟨outcome', heq', hright, -⟩
      rw [heq] at heq'
      cases heq'
      exact Or.inr (hanswers.mp hright)
    · intro h
      have hpid := h.resolve_left hchilds
      refine ⟨outcome, heq, hanswers.mpr hpid, fun _ _ => ?_⟩
      cases hwaited with
      | blocks hnil => exact absurd hnil hcons
      | takes => exact ⟨_, _, _, rfl⟩
      | misses => exact ⟨_, _, _, rfl⟩

/-- A call that goes on does what is asked for exactly when it is served. -/
theorem callRight_wake_iff (hs : FamilyInv s.family used contents)
    (hcur : s.family.Exists cur) (hrun : s.family.stage cur = .running) :
    s.CallRight (.wake cur) ↔ s.Served (.wake cur) := by
  have hempty := hs.lists.listEmpty_iff (hs.used_of_exists cur hcur)
  simp only [CallRight, Served]
  refine forall_congr' fun msg => imp_congr_right fun _ => ?_
  obtain ⟨outcome, hloop, hwaited⟩ := waitpidLoop_spec hs hcur hrun msg
  rw [hempty, ← hwaited.answers_iff hs hcur hrun]
  constructor
  · rintro ⟨outcome', heq, hright⟩
    rw [hloop] at heq
    cases heq
    exact hright
  · exact fun hright => ⟨outcome, hloop, hright⟩

end

/-! ## Runs -/

/-- The family invariant, and a task in `kern_waitpid` has not called `task_exit`. -/
structure Inv (s : Procs) (used : Slot → Prop) (contents : Slot → List Slot) : Prop where
  family : FamilyInv s.family used contents
  waiters : ∀ i, s.wait i = .idle ∨ s.family.Exists i ∧ s.family.stage i = .running

end Procs

/-- A running task goes on running unless it exits itself. -/
theorem FamilyMove.running {s t : Family} {used used' : Slot → Prop}
    {contents contents' : Slot → List Slot} {c : FamilyCall} (hs : FamilyInv s used contents)
    (hmove : FamilyMove s used contents c t used' contents') {i : Slot} (hi : s.Exists i)
    (hrun : s.stage i = .running) (hc : c ≠ .adopt i) : t.Exists i ∧ t.stage i = .running := by
  cases hmove with
  | startFailed => exact ⟨hi, hrun⟩
  | @startDiscarded _ _ _ j hfree =>
      exact ⟨(Family.exists_discarded hfree i).mpr hi, hrun⟩
  | @start _ _ _ j _ _ hfree =>
      refine ⟨(Family.exists_created _ i).mpr (Or.inr hi), ?_⟩
      show Function.update s.stage j .running i = _
      by_cases hij : i = j
      · rw [hij, Function.update_self]
      · rwa [Function.update_of_ne hij]
  | @execute _ _ _ j _ _ hfree =>
      refine ⟨(Family.exists_created _ i).mpr (Or.inr hi), ?_⟩
      show Function.update s.stage j .running i = _
      by_cases hij : i = j
      · rw [hij, Function.update_self]
      · rwa [Function.update_of_ne hij]
  | @adopt cur k _ =>
      have hne : i ≠ cur := by
        rintro rfl
        exact hc rfl
      refine ⟨?_, ?_⟩
      · show (s.adoptTask cur i).pid ≠ pidNoTask
        rw [Family.pid_adoptTask]
        exact hi
      · show Function.update s.stage cur .exiting i = _
        rwa [Function.update_of_ne hne]
  | @notify cur parent k _ hexit =>
      have hne : i ≠ cur := by
        rintro rfl
        rw [hexit] at hrun
        cases hrun
      refine ⟨hi, ?_⟩
      show Function.update s.stage cur .died i = _
      rwa [Function.update_of_ne hne]
  | @reap cur child rest k hcur _ hcons =>
      have hdied := ((hs.member cur (hs.used_of_exists cur hcur) child).mp
        (by simp [hcons])).2.2.1
      have hne : i ≠ child := by
        rintro rfl
        rw [hdied] at hrun
        cases hrun
      refine ⟨?_, hrun⟩
      show (if i = child then _ else if i = cur then _ else s.tasks i : FamilyTask).pid ≠ pidNoTask
      rw [if_neg hne]
      split
      · next hic => exact hic ▸ hi
      · exact hi

namespace Procs

variable {s t : Procs} {used : Slot → Prop} {contents : Slot → List Slot}

namespace Inv

/-- A task that has blocked in `kern_waitpid` is one that can go on. -/
theorem waiter (h : s.Inv used contents) {cur : Slot} {msg : WaitpidMsg}
    (hwait : s.wait cur = .waiting msg) :
    s.family.Exists cur ∧ s.family.stage cur = .running := by
  apply (h.waiters cur).resolve_left
  rw [hwait]
  exact WaitState.noConfusion

theorem setRemains (h : s.Inv used contents) (i : Slot) (r : TaskRemains) :
    (s.setRemains i r).Inv used contents := ⟨h.family, h.waiters⟩

theorem initRemains (h : s.Inv used contents) (kstackSize : Nat) (kmallocOk : Bool)
    (r : TaskRemains) : (s.initRemains kstackSize kmallocOk r).Inv used contents := by
  constructor
  · rw [family_initRemains]
    exact h.family
  · rw [family_initRemains, wait_initRemains]
    exact h.waiters

/-- A step of the families by which no task in `kern_waitpid` exits. -/
theorem familyCall (h : s.Inv used contents) {c : FamilyCall}
    (hc : ∀ i, c = .adopt i → s.wait i = .idle) (hstep : s.familyCall c = some t) :
    ∃ used' contents', t.Inv used' contents' := by
  simp only [Procs.familyCall, Option.bind_eq_bind, Option.pure_def, Option.bind_eq_some_iff,
    Option.some.injEq] at hstep
  obtain ⟨f, hf, rfl⟩ := hstep
  obtain ⟨used', contents', hmove⟩ := h.family.move hf
  refine ⟨used', contents', h.family.of_move hmove, fun i => ?_⟩
  by_cases hidle : s.wait i = .idle
  · exact Or.inl hidle
  · obtain ⟨hi, hrun⟩ := (h.waiters i).resolve_left hidle
    exact Or.inr (hmove.running h.family hi hrun fun heq => hidle (hc i heq))

/-- The caller of `kern_waitpid` goes on, or waits. -/
theorem setWait (h : s.Inv used contents) {cur : Slot} (hcur : s.family.Exists cur)
    (hrun : s.family.stage cur = .running) (w : WaitState) :
    (s.setWait cur w).Inv used contents := by
  refine ⟨h.family, fun i => ?_⟩
  by_cases hi : i = cur
  · subst hi
    exact Or.inr ⟨hcur, hrun⟩
  · show Function.update s.wait cur w i = .idle ∨ _
    rw [Function.update_of_ne hi]
    exact h.waiters i

theorem taken (h : s.Inv used contents) {cur child : Slot} {rest : List Slot}
    (hcur : s.family.Exists cur) (hrun : s.family.stage cur = .running)
    (hcons : contents cur = child :: rest) {k : Heap Slot Slot}
    (hlists : k.Holds used (Function.update contents cur rest)) :
    (s.taken cur child k).Inv used (Function.update contents cur rest) ∧
      (s.taken cur child k).family.Exists cur := by
  have hrunning {i : Slot} (hi : s.family.Exists i) (hri : s.family.stage i = .running) :=
    (FamilyMove.reap hcur hrun hcons hlists).running h.family hi hri (by simp)
  refine ⟨⟨h.family.reaped hcur hrun hcons hlists, fun i => ?_⟩, (hrunning hcur hrun).1⟩
  exact (h.waiters i).imp id fun hi => hrunning hi.1 hi.2

/-- The end of a call, or its next sleep. -/
theorem afterWait (h : s.Inv used contents) {cur : Slot} (hcur : s.family.Exists cur)
    (hrun : s.family.stage cur = .running) {msg : WaitpidMsg} {outcome : WaitOutcome}
    (hwaited : s.Waited used contents cur msg outcome) :
    ∃ contents', (s.afterWait cur msg outcome).Inv used contents' := by
  cases hwaited with
  | blocks => exact ⟨contents, h.setWait hcur hrun _⟩
  | takes hcons hpid hlists =>
      obtain ⟨htaken, hexist⟩ := h.taken hcur hrun hcons hlists
      exact ⟨_, htaken.setWait hexist hrun _⟩
  | misses => exact ⟨contents, h.setWait hcur hrun _⟩

/-- Every step keeps the invariant. -/
theorem step (h : s.Inv used contents) {c : ProcCall} (hstep : procStep s c = some t) :
    ∃ used' contents', t.Inv used' contents' := by
  cases c with
  | taskStart cur kstackSize kmallocOk r =>
      simp only [procStep] at hstep
      split at hstep
      · exact (h.initRemains kstackSize kmallocOk r).familyCall (fun i heq => by cases heq) hstep
      · cases hstep
  | procExecute cur kstackSize kmallocOk r =>
      simp only [procStep] at hstep
      split at hstep
      · exact (h.initRemains kstackSize kmallocOk r).familyCall (fun i heq => by cases heq) hstep
      · cases hstep
  | taskExit cur status =>
      simp only [procStep] at hstep
      split at hstep
      · next hidle =>
          refine (h.setRemains cur _).familyCall (fun i heq => ?_) hstep
          cases heq
          exact hidle
      · cases hstep
  | notify cur => exact h.familyCall (fun i heq => by cases heq) hstep
  | waitpid cur msg =>
      simp only [procStep] at hstep
      split at hstep
      · split at hstep
        · next hidle hguard =>
            obtain ⟨hcur, hrun⟩ := hguard
            rw [kernWaitpid_eq h.family hcur msg] at hstep
            split at hstep
            · simp only [Option.bind_eq_bind, Option.bind_some, Option.pure_def,
                Option.some.injEq] at hstep
              subst hstep
              exact ⟨used, contents, h.setWait hcur hrun _⟩
            · split at hstep
              · simp only [Option.bind_eq_bind, Option.bind_some, Option.pure_def,
                  Option.some.injEq] at hstep
                subst hstep
                exact ⟨used, contents, h.setWait hcur hrun _⟩
              · obtain ⟨outcome, hloop, hwaited⟩ := waitpidLoop_spec h.family hcur hrun msg
                simp only [hloop, Option.bind_eq_bind, Option.bind_some, Option.pure_def,
                  Option.some.injEq] at hstep
                subst hstep
                exact ⟨used, h.afterWait hcur hrun hwaited⟩
        · cases hstep
      · cases hstep
  | wake cur =>
      simp only [procStep] at hstep
      split at hstep
      · next msg hwait =>
          obtain ⟨hcur, hrun⟩ := h.waiter hwait
          obtain ⟨outcome, hloop, hwaited⟩ := waitpidLoop_spec h.family hcur hrun msg
          simp only [hloop, Option.bind_eq_bind, Option.bind_some, Option.pure_def,
            Option.some.injEq] at hstep
          subst hstep
          exact ⟨used, h.afterWait hcur hrun hwaited⟩
      · cases hstep

end Inv

theorem exists_inv {s : Procs} (hreach : procSystem.Reachable s) :
    ∃ used contents, s.Inv used contents := by
  apply hreach.invariant (P := fun s => ∃ used contents, s.Inv used contents)
  · intro s hinit
    exact ⟨_, _, FamilyInv.of_booted hinit.1, fun i => Or.inl (hinit.2 i)⟩
  · intro s c t ⟨used, contents, h⟩ _ hstep
    exact h.step hstep

end Procs

/-- In every reachable state a step of `kern_waitpid` does what is asked for exactly when it
is served: a call with a child counter of zero is refused; else, without a dead child, it must
be one that may block, and with one it must not name a child. -/
theorem procSystem_waitpid_iff {s : Procs} (hreach : procSystem.Reachable s) {c : ProcCall}
    (hstep : s.MayStep c) : s.CallRight c ↔ s.Served c := by
  obtain ⟨used, contents, h⟩ := Procs.exists_inv hreach
  cases c with
  | waitpid cur msg =>
      obtain ⟨-, hcur, hrun⟩ := hstep
      exact Procs.callRight_waitpid_iff h.family hcur hrun msg
  | wake cur =>
      obtain ⟨msg, hwait⟩ := hstep
      obtain ⟨hcur, hrun⟩ := h.waiter hwait
      exact Procs.callRight_wake_iff h.family hcur hrun
  | taskStart => exact Iff.rfl
  | procExecute => exact Iff.rfl
  | taskExit => exact Iff.rfl
  | notify => exact Iff.rfl

/-! ## A child that exits -/

namespace Procs

/-- A request for the child in slot `child`. -/
def askFor (child : Slot) : WaitpidMsg := ⟨BitVec.ofNat 64 child, 0⟩

/-- A request for any child. -/
def askForAny : WaitpidMsg := ⟨-1, 0⟩

/-- A request for any child that must not block. -/
def askNoHang : WaitpidMsg := ⟨-1, 1⟩

/-- The machine after boot; no memory has been given back. -/
def bootProcs : Procs where
  family := bootFamily
  remains _ := ⟨0, 0, 0⟩
  wait _ := .idle
  kfreed := []

theorem bootProcs_reachable : procSystem.Reachable bootProcs :=
  .init ⟨bootFamily_booted, fun _ => rfl⟩

/-- Where the memory of the child is. -/
def childRemains : TaskRemains := ⟨0, 0x200000, 0x300000⟩

/-- The task is in no call of `kern_waitpid`. -/
def isIdle (s : Procs) (i : Slot) : Bool :=
  match s.wait i with
  | .idle => true
  | _ => false

theorem wait_of_isIdle {s : Procs} {i : Slot} (h : s.isIdle i = true) : s.wait i = .idle := by
  unfold isIdle at h
  split at h
  · assumption
  · cases h

theorem procSystem_next (s : Procs) (c : ProcCall) (t : Procs) (h : procStep s c = some t) :
    procSystem.step s c t := h

/-- The main task of the first CPU has started a child, which has not done anything. -/
theorem exists_started : ∃ s, procSystem.Reachable s ∧ s.wait 0 = .idle ∧ s.family.Exists 0 ∧
    s.family.stage 0 = .running ∧ (s.family.tasks 0).childs = 2 ∧
    s.family.links.listEmpty 0 = true := by
  have hrun : ((System.runWhen (fun _ _ => true) procStep bootProcs
      [.taskStart 0 4096 true childRemains]).map fun s =>
        (s.isIdle 0, (s.family.Exists 0 : Bool), s.family.stage 0, (s.family.tasks 0).childs,
          s.family.links.listEmpty 0)) = some (true, true, .running, 2, true) := by
    decide +kernel
  obtain ⟨s, hreach, hview⟩ := bootProcs_reachable.exists_run procSystem_next hrun
  simp only [Prod.mk.injEq, decide_eq_true_eq] at hview
  exact ⟨s, hreach, wait_of_isIdle hview.1, hview.2⟩

/-- The child has exited and its parent been informed. -/
theorem exists_deadChild : ∃ s, procSystem.Reachable s ∧ s.wait 0 = .idle ∧
    s.family.Exists 0 ∧ s.family.stage 0 = .running ∧ (s.family.tasks 0).childs = 2 ∧
    s.family.links.listEmpty 0 = false ∧ s.family.Exists 257 ∧ s.family.stage 257 = .died ∧
    (s.family.tasks 257).ppid = (s.family.tasks 0).pid ∧ (s.family.tasks 257).pid = 257 := by
  have hrun : ((System.runWhen (fun _ _ => true) procStep bootProcs
      [.taskStart 0 4096 true childRemains, .taskExit 257 7, .notify 257]).map fun s =>
        (s.isIdle 0, s.family.tasks 0, s.family.stage 0, s.family.links.listEmpty 0,
          s.family.tasks 257, s.family.stage 257)) =
      some (true, ⟨0, 0, 0, 2⟩, .running, false, ⟨257, 0, 0, 0⟩, .died) := by
    decide +kernel
  obtain ⟨s, hreach, hview⟩ := bootProcs_reachable.exists_run procSystem_next hrun
  simp only [Prod.mk.injEq] at hview
  obtain ⟨hidle, hmain, hrunning, hfull, hchild, hdied⟩ := hview
  refine ⟨s, hreach, wait_of_isIdle hidle, ?_, hrunning, ?_, hfull, ?_, hdied, ?_, ?_⟩
  · rw [Family.Exists, hmain]
    decide
  · rw [hmain]
  · rw [Family.Exists, hchild]
    decide
  · rw [hmain, hchild]
  · rw [hchild]

/-- A request for any child reaps the one that has died. -/
theorem deadChild_reaped : ∃ s, procSystem.Reachable s ∧ s.Matches 0 askForAny 257 ∧
    s.CallRight (.waitpid 0 askForAny) := by
  obtain ⟨s, hreach, hidle, hmain, hrun, -, hfull, hchild, hdied, hppid, -⟩ := exists_deadChild
  refine ⟨s, hreach, ⟨hchild, hdied, hppid, Or.inl (by decide)⟩, ?_⟩
  have hstep : s.MayStep (.waitpid 0 askForAny) := ⟨hidle, hmain, hrun⟩
  apply (procSystem_waitpid_iff hreach hstep).mpr
  refine Or.inr ?_
  rw [hfull]
  decide

/-- A request that names the child which has died is answered with `SYSCALL_SUCCESS` and reaps
nobody; one with `WNOHANG` while the child is alive never returns. -/
theorem deadChild_not_reaped :
    (∃ s, procSystem.Reachable s ∧ s.MayStep (.waitpid 0 (askFor 257)) ∧
      s.Matches 0 (askFor 257) 257 ∧
      s.kernWaitpid 0 (askFor 257) = some (.returns .success (askFor 257) s) ∧
      ¬ s.CallRight (.waitpid 0 (askFor 257))) ∧
    ∃ s, procSystem.Reachable s ∧ s.MayStep (.waitpid 0 askNoHang) ∧
      s.kernWaitpid 0 askNoHang = some .loops ∧ ¬ s.CallRight (.waitpid 0 askNoHang) := by
  have hnamed : ¬ (askFor 257).inPid = -1 := by decide
  constructor
  · obtain ⟨s, hreach, hidle, hmain, hrun, hchilds, hfull, hchild, hdied, hppid, hpid⟩ :=
      exists_deadChild
    obtain ⟨used, contents, h⟩ := exists_inv hreach
    have hcounted : ¬ (s.family.tasks 0).childs = 0 := by
      rw [hchilds]
      decide
    refine ⟨s, hreach, ⟨hidle, hmain, hrun⟩, ⟨hchild, hdied, hppid, Or.inr ?_⟩, ?_, ?_⟩
    · rw [hpid]
      decide
    · rw [kernWaitpid_eq h.family hmain, if_neg hcounted,
        if_neg (fun hempty => Bool.false_ne_true (hfull.symm.trans hempty.1))]
      obtain ⟨outcome, hloop, hwaited⟩ := waitpidLoop_spec h.family hmain hrun (askFor 257)
      rw [hloop]
      cases hwaited with
      | blocks hnil =>
          have hempty := (h.family.lists.listEmpty_iff (h.family.used_of_exists 0 hmain)).mpr hnil
          exact absurd (hfull.symm.trans hempty) Bool.false_ne_true
      | takes _ hany => exact absurd hany hnamed
      | misses => rfl
    · rw [callRight_waitpid_iff h.family hmain hrun]
      simp only [Served, hfull, not_or]
      exact ⟨hcounted, hnamed⟩
  · obtain ⟨s, hreach, hidle, hmain, hrun, hchilds, hempty⟩ := exists_started
    obtain ⟨used, contents, h⟩ := exists_inv hreach
    have hcounted : ¬ (s.family.tasks 0).childs = 0 := by
      rw [hchilds]
      decide
    refine ⟨s, hreach, ⟨hidle, hmain, hrun⟩, ?_, ?_⟩
    · rw [kernWaitpid_eq h.family hmain, if_neg hcounted, if_pos ⟨hempty, by decide⟩]
    · rw [callRight_waitpid_iff h.family hmain hrun]
      simp only [Served, hempty, if_true, not_or]
      exact ⟨hcounted, by decide⟩

end Procs

end ClayFigure
