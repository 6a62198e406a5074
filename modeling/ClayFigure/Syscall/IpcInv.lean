/-
# What the interleavings of `msg_send` and `msg_recv` keep

At every moment a message that was sent has one place: it waits in the sender list
of its destination, or the destination has taken it out and is about to copy it, or
has copied it and is about to say so. The place decides what `send_flag` is, which
is one lower as long as the sender has not counted its message yet. On the other side
the wake-up check has to hand over to the woken receiver what it has seen: an
interrupt stays pending and a sender stays in the list until the receiver itself
takes it.
-/

import Mathlib.Logic.Function.Basic
import ClayFigure.Syscall.Ipc

namespace ClayFigure

open ClayFigure.Math

variable {β : Type}

/-- Where the message of a sender is. -/
inductive Place
  | none
  | queued (receiver : Slot)
  | held (receiver : Slot)
  | copied (receiver : Slot)
  | gone
  deriving DecidableEq

/-- The sender a receiver has taken out of its list, and whether the message is copied. -/
def Pc.holds : Pc β → Option (Slot × Bool)
  | .recvCopy _ sender => some (sender, false)
  | .recvRelease _ sender _ => some (sender, true)
  | .recvInform _ sender _ => some (sender, true)
  | .recvCount _ sender _ => some (sender, true)
  | _ => none

/-! ## The sender -/

/-- No message of the task is on its way and all were copied. -/
def Settled (task : IpcTask β) (record : IpcRecord β) (place : Place) : Prop :=
  place = .none ∧ task.sendFlag = 0 ∧ record.accepted = record.copied

/-- The task has sent `msg` to `dst`, and `send_flag` is `flag` until the receiver
counts it down. -/
def Posted (flag : BitVec 64) (dst : Int) (msg : Message β) (task : IpcTask β)
    (record : IpcRecord β) : Place → Prop
  | .none => False
  | .queued r =>
      dst = pidOf r ∧ task.msg = msg ∧ task.sendFlag = flag ∧
        record.accepted = record.copied ++ [(dst, msg)]
  | .held r =>
      dst = pidOf r ∧ task.msg = msg ∧ task.sendFlag = flag ∧
        record.accepted = record.copied ++ [(dst, msg)]
  | .copied r => dst = pidOf r ∧ task.sendFlag = flag ∧ record.accepted = record.copied
  | .gone => task.sendFlag = flag - 1 ∧ record.accepted = record.copied

/-- What a task can rely on at each point of `msg_send`, and outside of it. -/
def SendOk (exist : Slot → Bool) (pc : Pc β) (task : IpcTask β) (record : IpcRecord β)
    (place : Place) : Prop :=
  match pc with
  | .sendFill dst msg =>
      (∃ r, dst = pidOf r ∧ exist r = true) ∧ place = .none ∧ task.sendFlag = 0 ∧
        task.sendTo = dst ∧ record.accepted = record.copied ++ [(dst, msg)] ∧
        record.succeeded + 1 = record.accepted.length
  | .sendAppend dst msg =>
      (∃ r, dst = pidOf r ∧ exist r = true) ∧ place = .none ∧ task.sendFlag = 0 ∧
        task.sendTo = dst ∧ record.accepted = record.copied ++ [(dst, msg)] ∧
        record.succeeded + 1 = record.accepted.length ∧ task.msg = msg
  | .sendCount dst msg =>
      Posted 0 dst msg task record place ∧ record.succeeded + 1 = record.accepted.length
  | .sendBlock dst msg =>
      Posted 1 dst msg task record place ∧ record.succeeded + 1 = record.accepted.length
  | .sending dst msg =>
      Posted 1 dst msg task record place ∧ record.succeeded + 1 = record.accepted.length
  | .sendReturn =>
      Settled task record place ∧ record.succeeded + 1 = record.accepted.length
  | _ => Settled task record place ∧ record.succeeded = record.accepted.length

/-! ## The receiver -/

/-- What `msg_recv` accepts as a source. -/
def Named (exist : Slot → Bool) (src : Int) : Prop :=
  src = recvFromAny ∨ src = recvFromInt ∨ ∃ q, src = pidOf q ∧ exist q = true

/-- There is a message for a receiver that waits for `src` with the senders `xs` in its
list. -/
structure Ready (src : Int) (task : IpcTask β) (xs : List Slot) : Prop where
  any : task.hasIntrMsg ≠ 0 ∨ xs ≠ []
  intr : src = recvFromInt → task.hasIntrMsg ≠ 0
  sender : ∀ q, src = pidOf q → q ∈ xs

/-- A message of `sender` may be given to a receiver that waits for `src`. -/
def Fits (src : Int) (sender : Slot) : Prop := src = recvFromAny ∨ src = pidOf sender

/-- Task `r` has copied `msg`, a message of `sender`. -/
def Taken (copies : Slot → List (Int × Message β)) (r sender : Slot) (msg : Message β) : Prop :=
  msg.src = pidOf sender ∧ (pidOf r, msg) ∈ copies sender

/-- What a task can rely on at each point of `msg_recv`, and outside of it. -/
def RecvOk (exist : Slot → Bool) (copies : Slot → List (Int × Message β)) (r : Slot) (pc : Pc β)
    (task : IpcTask β) (xs : List Slot) : Prop :=
  match pc with
  | .recvSet src _ => task.recvFlag = 0 ∧ task.recvFrom = src ∧ Named exist src
  | .recvBlock src _ => task.recvFlag = 1 ∧ task.recvFrom = src ∧ Named exist src
  | .receiving src _ => task.recvFlag = 1 ∧ task.recvFrom = src ∧ Named exist src
  | .recvSelect src _ => task.recvFlag = 0 ∧ Named exist src ∧ Ready src task xs
  | .recvIntrClear src _ => task.recvFlag = 0 ∧ (src = recvFromAny ∨ src = recvFromInt)
  | .recvIntrTake src _ => task.recvFlag = 0 ∧ (src = recvFromAny ∨ src = recvFromInt)
  | .recvPop src => task.recvFlag = 0 ∧ src = recvFromAny ∧ xs ≠ []
  | .recvRemove src => task.recvFlag = 0 ∧ ∃ q, src = pidOf q ∧ exist q = true ∧ q ∈ xs
  | .recvCopy src sender => task.recvFlag = 0 ∧ Fits src sender
  | .recvRelease src sender msg => task.recvFlag = 0 ∧ Fits src sender ∧ Taken copies r sender msg
  | .recvInform src sender msg => task.recvFlag = 0 ∧ Fits src sender ∧ Taken copies r sender msg
  | .recvCount src sender msg => task.recvFlag = 0 ∧ Fits src sender ∧ Taken copies r sender msg
  | _ => task.recvFlag = 0

/-- What the wake-up check can rely on at each of its points. -/
def CheckOk (pc : Pc β) (task : IpcTask β) (xs : List Slot) : CheckPc → Prop
  | .idle => True
  | .readIntr => ∃ src msg, pc = .receiving src msg
  | .readList => ∃ src msg, pc = .receiving src msg
  | .readFrom => ∃ src msg, pc = .receiving src msg ∧ (task.hasIntrMsg ≠ 0 ∨ xs ≠ [])
  | .readIntrAgain => ∃ msg, pc = .receiving recvFromInt msg
  | .findSender sender => ∃ msg, pc = .receiving sender msg
  | .clearFlag => ∃ src msg, pc = .receiving src msg ∧ Ready src task xs
  | .readSendFlag => pc = .waiting ∨ ∃ dst msg, pc = .sending dst msg

/-- What `msg_recv` has returned: an interrupt, or a message copied from its sender;
and it is of the source asked for. -/
def ReceivedOk (copies : Slot → List (Int × Message β)) (r : Slot)
    (received : List (Int × Message β)) : Prop :=
  ∀ x ∈ received,
    (x.2.src = recvFromInt ∧ (x.1 = recvFromAny ∨ x.1 = recvFromInt)) ∨
      ∃ q, Fits x.1 q ∧ Taken copies r q x.2

/-! ## The invariant -/

namespace Ipc

/-- The copies made of the messages of each task. -/
def copies (s : Ipc β) (q : Slot) : List (Int × Message β) := (s.record q).copied

/-- Give task `p` a program counter, fields, a record and a place in the wake-up check. -/
def put (s : Ipc β) (p : Slot) (pc : Pc β) (task : IpcTask β) (record : IpcRecord β)
    (check : CheckPc) : Ipc β :=
  { s with
    pc := Function.update s.pc p pc
    task := Function.update s.task p task
    record := Function.update s.record p record
    check := Function.update s.check p check }

theorem setPc_eq_put (s : Ipc β) (p : Slot) (pc : Pc β) :
    s.setPc p pc = s.put p pc (s.task p) (s.record p) (s.check p) := by
  simp [setPc, put]

theorem setTask_eq_put (s : Ipc β) (p : Slot) (task : IpcTask β) :
    s.setTask p task = s.put p (s.pc p) task (s.record p) (s.check p) := by
  simp [setTask, put]

theorem setRecord_eq_put (s : Ipc β) (p : Slot) (record : IpcRecord β) :
    s.setRecord p record = s.put p (s.pc p) (s.task p) record (s.check p) := by
  simp [setRecord, put]

theorem setCheck_eq_put (s : Ipc β) (p : Slot) (check : CheckPc) :
    s.setCheck p check = s.put p (s.pc p) (s.task p) (s.record p) check := by
  simp [setCheck, put]

@[simp]
theorem put_put (s : Ipc β) (p : Slot) (pc pc' : Pc β) (task task' : IpcTask β)
    (record record' : IpcRecord β) (check check' : CheckPc) :
    (s.put p pc task record check).put p pc' task' record' check' =
      s.put p pc' task' record' check' := by
  simp [put]

@[simp]
theorem put_self (s : Ipc β) (p : Slot) (pc : Pc β) (task : IpcTask β) (record : IpcRecord β)
    (check : CheckPc) :
    (s.put p pc task record check).pc p = pc ∧ (s.put p pc task record check).task p = task ∧
      (s.put p pc task record check).record p = record ∧
      (s.put p pc task record check).check p = check := by
  simp [put]

theorem pidOf_ne_recvFromInt (q : Slot) : pidOf q ≠ recvFromInt := by
  unfold pidOf recvFromInt
  omega

theorem pidOf_ne_recvFromAny (q : Slot) : pidOf q ≠ recvFromAny := by
  unfold pidOf recvFromAny
  omega

theorem pidOf_inj {q q' : Slot} (h : pidOf q = pidOf q') : q = q' := by
  unfold pidOf at h
  apply Fin.ext
  omega

theorem pidToTask_eq_some {s : Ipc β} {pid : Int} {q : Slot} :
    s.pidToTask pid = some q ↔ pid = pidOf q ∧ s.exist q = true := by
  unfold pidToTask pidOf minPid maxPid
  constructor
  · intro h
    simp only [Option.dite_none_right_eq_some, Option.ite_none_right_eq_some,
      Option.some.injEq] at h
    obtain ⟨hrange, hexist, rfl⟩ := h
    exact ⟨(Int.toNat_of_nonneg hrange.1).symm, hexist⟩
  · intro ⟨hpid, hexist⟩
    have hlt := q.isLt
    subst hpid
    simp only [Int.toNat_natCast, Fin.eta, hexist, if_true]
    rw [dif_pos ⟨by omega, by omega⟩]

end Ipc

/-- All that a task can rely on, with the senders in its list and the place of its
message. -/
structure TaskOk (exist : Slot → Bool) (copies : Slot → List (Int × Message β)) (p : Slot)
    (pc : Pc β) (task : IpcTask β) (record : IpcRecord β) (check : CheckPc) (xs : List Slot)
    (place : Place) : Prop where
  alive : exist p = true ∨ pc = .user
  send : SendOk exist pc task record place
  stamped : ∀ x ∈ record.accepted, x.2.src = pidOf p
  recv : RecvOk exist copies p pc task xs
  check : CheckOk pc task xs check
  received : ReceivedOk copies p record.received

/-- The invariant of all interleavings, for the senders each list holds and the places
of the messages. -/
structure IpcInv (s : Ipc β) (contents : Slot → List Slot) (place : Slot → Place) : Prop where
  lists : s.links.Holds (s.exist · = true) contents
  tasks : ∀ p, TaskOk s.exist s.copies p (s.pc p) (s.task p) (s.record p) (s.check p)
    (contents p) (place p)
  queued : ∀ r q, s.exist r = true → (q ∈ contents r ↔ place q = .queued r)
  held : ∀ r q, (s.pc r).holds = some (q, false) ↔ place q = .held r
  taken : ∀ r q, (s.pc r).holds = some (q, true) ↔ place q = .copied r

/-! ## What other tasks can do to a receiver -/

theorem Ready.mono {src : Int} {task task' : IpcTask β} {xs xs' : List Slot}
    (h : Ready src task xs) (hintr : task.hasIntrMsg ≠ 0 → task'.hasIntrMsg ≠ 0)
    (hsub : xs ⊆ xs') : Ready src task' xs' where
  any := h.any.imp hintr fun hne hnil => hne (List.subset_nil.mp (hnil ▸ hsub))
  intr hsrc := hintr (h.intr hsrc)
  sender q hq := hsub (h.sender q hq)

/-- Interrupts and senders that come in, and copies that are made, break no assumption of
a receiver. -/
theorem RecvOk.mono {exist : Slot → Bool} {copies copies' : Slot → List (Int × Message β)}
    {r : Slot} {pc : Pc β} {task task' : IpcTask β} {xs xs' : List Slot}
    (h : RecvOk exist copies r pc task xs)
    (hcopies : ∀ q, copies q ⊆ copies' q) (hfrom : task'.recvFrom = task.recvFrom)
    (hflag : task'.recvFlag = task.recvFlag)
    (hintr : task.hasIntrMsg ≠ 0 → task'.hasIntrMsg ≠ 0) (hsub : xs ⊆ xs') :
    RecvOk exist copies' r pc task' xs' := by
  have htaken {sender : Slot} {msg : Message β} (h : Taken copies r sender msg) :
      Taken copies' r sender msg := ⟨h.1, hcopies sender h.2⟩
  cases pc with
  | recvSet src msg => exact ⟨hflag.trans h.1, hfrom.trans h.2.1, h.2.2⟩
  | recvBlock src msg => exact ⟨hflag.trans h.1, hfrom.trans h.2.1, h.2.2⟩
  | receiving src msg => exact ⟨hflag.trans h.1, hfrom.trans h.2.1, h.2.2⟩
  | recvSelect src msg => exact ⟨hflag.trans h.1, h.2.1, h.2.2.mono hintr hsub⟩
  | recvIntrClear src msg => exact ⟨hflag.trans h.1, h.2⟩
  | recvIntrTake src msg => exact ⟨hflag.trans h.1, h.2⟩
  | recvPop src =>
      exact ⟨hflag.trans h.1, h.2.1, fun hnil => h.2.2 (List.subset_nil.mp (hnil ▸ hsub))⟩
  | recvRemove src =>
      obtain ⟨h0, q, hq, hexist, hmem⟩ := h
      exact ⟨hflag.trans h0, q, hq, hexist, hsub hmem⟩
  | recvCopy src sender => exact ⟨hflag.trans h.1, h.2⟩
  | recvRelease src sender msg => exact ⟨hflag.trans h.1, h.2.1, htaken h.2.2⟩
  | recvInform src sender msg => exact ⟨hflag.trans h.1, h.2.1, htaken h.2.2⟩
  | recvCount src sender msg => exact ⟨hflag.trans h.1, h.2.1, htaken h.2.2⟩
  | _ => exact hflag.trans h

theorem CheckOk.mono {pc : Pc β} {task task' : IpcTask β} {xs xs' : List Slot} {c : CheckPc}
    (h : CheckOk pc task xs c) (hintr : task.hasIntrMsg ≠ 0 → task'.hasIntrMsg ≠ 0)
    (hsub : xs ⊆ xs') : CheckOk pc task' xs' c := by
  cases c with
  | readFrom =>
      obtain ⟨src, msg, hpc, hany⟩ := h
      refine ⟨src, msg, hpc, hany.imp hintr fun hne hnil => hne ?_⟩
      exact List.subset_nil.mp (hnil ▸ hsub)
  | clearFlag =>
      obtain ⟨src, msg, hpc, hready⟩ := h
      exact ⟨src, msg, hpc, hready.mono hintr hsub⟩
  | _ => exact h

theorem ReceivedOk.mono {copies copies' : Slot → List (Int × Message β)} {r : Slot}
    {received : List (Int × Message β)} (h : ReceivedOk copies r received)
    (hcopies : ∀ q, copies q ⊆ copies' q) : ReceivedOk copies' r received := by
  intro x hx
  rcases h x hx with hintr | ⟨q, hfits, hsrc, hmem⟩
  · exact Or.inl hintr
  · exact Or.inr ⟨q, hfits, hsrc, hcopies q hmem⟩

/-- What other tasks do is harmless. -/
theorem TaskOk.mono {exist : Slot → Bool} {copies copies' : Slot → List (Int × Message β)}
    {p : Slot} {pc : Pc β} {task : IpcTask β} {record : IpcRecord β} {check : CheckPc}
    {xs xs' : List Slot} {place : Place}
    (h : TaskOk exist copies p pc task record check xs place)
    (hcopies : ∀ q, copies q ⊆ copies' q) (hsub : xs ⊆ xs') :
    TaskOk exist copies' p pc task record check xs' place where
  alive := h.alive
  send := h.send
  stamped := h.stamped
  recv := h.recv.mono hcopies rfl rfl id hsub
  check := h.check.mono id hsub
  received := h.received.mono hcopies

/-- A task that is not blocked is not being checked. -/
theorem CheckOk.eq_idle {s : Ipc β} {p : Slot} {task : IpcTask β} {xs : List Slot} {c : CheckPc}
    (h : CheckOk (s.pc p) task xs c) (hblocked : s.Blocked p = false) : c = .idle := by
  unfold Ipc.Blocked at hblocked
  cases c with
  | idle => rfl
  | readIntr | readList =>
      obtain ⟨_, _, hpc⟩ := h
      simp [hpc] at hblocked
  | readIntrAgain | findSender =>
      obtain ⟨_, hpc⟩ := h
      simp [hpc] at hblocked
  | readFrom | clearFlag =>
      obtain ⟨_, _, hpc, -⟩ := h
      simp [hpc] at hblocked
  | readSendFlag => rcases h with hpc | ⟨_, _, hpc⟩ <;> simp [hpc] at hblocked

/-! ## Steps that concern one task only -/

namespace IpcInv

variable {s t : Ipc β} {contents : Slot → List Slot} {place : Slot → Place} {p : Slot}

/-- A step of task `p` that moves no message. -/
theorem put (h : IpcInv s contents place) {pc : Pc β} {task : IpcTask β} {record : IpcRecord β}
    {check : CheckPc} (hcopied : record.copied = (s.record p).copied)
    (hholds : pc.holds = (s.pc p).holds)
    (htask : TaskOk s.exist s.copies p pc task record check (contents p) (place p)) :
    IpcInv (s.put p pc task record check) contents place := by
  have hcopies : (s.put p pc task record check).copies = s.copies := by
    funext q
    by_cases hq : q = p
    · subst hq
      simp [Ipc.copies, hcopied]
    · simp [Ipc.copies, Ipc.put, hq]
  have hpcs (r : Slot) : ((s.put p pc task record check).pc r).holds = (s.pc r).holds := by
    by_cases hr : r = p
    · subst hr
      simp [hholds]
    · simp [Ipc.put, hr]
  refine ⟨h.lists, fun q => ?_, h.queued, fun r q => ?_, fun r q => ?_⟩
  · rw [hcopies]
    by_cases hq : q = p
    · subst hq
      simp only [Ipc.put_self]
      exact htask
    · simp only [Ipc.put, Function.update_of_ne hq]
      exact h.tasks q
  · rw [hpcs]
    exact h.held r q
  · rw [hpcs]
    exact h.taken r q

end IpcInv

end ClayFigure
