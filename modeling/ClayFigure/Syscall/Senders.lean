/-
# The tasks in `msg_send`

What one step of the interleavings does to the tasks that have set `send_to` and are blocked
in `TASK_SENDING` or will be. Four things happen to them: a send starts, its message is
copied, `send_to` is taken back, or nothing.
-/

import ClayFigure.Syscall.IpcDelivery

namespace ClayFigure

open ClayFigure.Math

variable {β : Type}

/-- The destination of a task that is, or is about to be, in `TASK_SENDING`. -/
def Pc.dest : Pc β → Option Int
  | .sendFill dst _ => some dst
  | .sendAppend dst _ => some dst
  | .sendCount dst _ => some dst
  | .sendBlock dst _ => some dst
  | .sending dst _ => some dst
  | _ => none

namespace Ipc

/-- Task `p` is or will be in `TASK_SENDING`, and `send_to` names `q`. -/
def Sends (s : Ipc β) (p q : Slot) : Prop :=
  (s.pc p).dest.isSome ∧ s.pidToTask (s.task p).sendTo = some q

variable {s t u : Ipc β} {p q : Slot}

theorem setPc_pc (s : Ipc β) (p : Slot) (pc : Pc β) (q : Slot) :
    (s.setPc p pc).pc q = if q = p then pc else s.pc q :=
  Function.update_apply ..

theorem setTask_task (s : Ipc β) (p : Slot) (task : IpcTask β) (q : Slot) :
    (s.setTask p task).task q = if q = p then task else s.task q :=
  Function.update_apply ..

theorem sendTo_setTask {task : IpcTask β} (hto : task.sendTo = (s.task p).sendTo) (q : Slot) :
    ((s.setTask p task).task q).sendTo = (s.task q).sendTo := by
  rw [setTask_task]
  split
  · next heq => rw [hto, heq]
  · rfl

theorem pidToTask_congr (hexist : t.exist = s.exist) (pid : Int) :
    t.pidToTask pid = s.pidToTask pid := by
  unfold pidToTask
  rw [hexist]

theorem pidToTask_pidNoTask (s : Ipc β) : s.pidToTask pidNoTask = none := by
  unfold pidToTask
  rw [dif_neg (by decide)]

/-! ## Steps that leave them alone -/

/-- The tasks in `msg_send` are those of `s` or fewer, and their sends are the same. -/
structure KeepsSends (s t : Ipc β) : Prop where
  exist : t.exist = s.exist
  dest : ∀ p, (t.pc p).dest.isSome → (t.pc p).dest = (s.pc p).dest
  sendTo : ∀ p, (t.pc p).dest.isSome → (t.task p).sendTo = (s.task p).sendTo
  accepted : ∀ p, (t.pc p).dest.isSome → (t.record p).accepted = (s.record p).accepted
  copied : ∀ p, (t.pc p).dest.isSome → (t.record p).copied = (s.record p).copied

namespace KeepsSends

theorem trans (h : KeepsSends s t) (h' : KeepsSends t u) : KeepsSends s u := by
  have hflight (p : Slot) (hp : (u.pc p).dest.isSome) : (t.pc p).dest.isSome := by
    rwa [h'.dest p hp] at hp
  exact
    { exist := h'.exist.trans h.exist
      dest := fun p hp => (h'.dest p hp).trans (h.dest p (hflight p hp))
      sendTo := fun p hp => (h'.sendTo p hp).trans (h.sendTo p (hflight p hp))
      accepted := fun p hp => (h'.accepted p hp).trans (h.accepted p (hflight p hp))
      copied := fun p hp => (h'.copied p hp).trans (h.copied p (hflight p hp)) }

theorem updateCheck (s : Ipc β) (p : Slot) (c : CheckPc) : KeepsSends s (s.setCheck p c) :=
  ⟨rfl, fun _ _ => rfl, fun _ _ => rfl, fun _ _ => rfl, fun _ _ => rfl⟩

theorem updateLinks (s : Ipc β) (k : Heap Slot Slot) : KeepsSends s (s.setLinks k) :=
  ⟨rfl, fun _ _ => rfl, fun _ _ => rfl, fun _ _ => rfl, fun _ _ => rfl⟩

theorem updatePc (s : Ipc β) (p : Slot) {pc : Pc β}
    (hpc : pc.dest.isSome → pc.dest = (s.pc p).dest) : KeepsSends s (s.setPc p pc) := by
  refine ⟨rfl, fun q hq => ?_, fun _ _ => rfl, fun _ _ => rfl, fun _ _ => rfl⟩
  rw [setPc_pc] at hq ⊢
  split
  · next heq =>
      rw [if_pos heq] at hq
      rw [heq, hpc hq]
  · rfl

theorem updateTask (s : Ipc β) (p : Slot) {task : IpcTask β}
    (hto : task.sendTo = (s.task p).sendTo) : KeepsSends s (s.setTask p task) :=
  ⟨rfl, fun _ _ => rfl, fun q _ => sendTo_setTask hto q, fun _ _ => rfl, fun _ _ => rfl⟩

theorem move (s : Ipc β) (p : Slot) {task : IpcTask β} {pc : Pc β}
    (hto : task.sendTo = (s.task p).sendTo) (hpc : pc.dest.isSome → pc.dest = (s.pc p).dest) :
    KeepsSends s ((s.setTask p task).setPc p pc) :=
  (updateTask s p hto).trans (updatePc _ p hpc)

/-- What a task that leaves `msg_send` does to its own fields is no matter. -/
theorem of_out (hexist : t.exist = s.exist) (hpc : (t.pc p).dest = none)
    (hagree : ∀ q ≠ p, t.pc q = s.pc q ∧ t.task q = s.task q ∧ t.record q = s.record q) :
    KeepsSends s t := by
  have hne (q : Slot) (hq : (t.pc q).dest.isSome) : q ≠ p := by
    rintro rfl
    simp [hpc] at hq
  exact
    { exist := hexist
      dest := fun q hq => by rw [(hagree q (hne q hq)).1]
      sendTo := fun q hq => by rw [(hagree q (hne q hq)).2.1]
      accepted := fun q hq => by rw [(hagree q (hne q hq)).2.2]
      copied := fun q hq => by rw [(hagree q (hne q hq)).2.2] }

theorem leave (s : Ipc β) (p : Slot) {task : IpcTask β} {pc : Pc β} (hpc : pc.dest = none) :
    KeepsSends s ((s.setTask p task).setPc p pc) := by
  apply of_out (p := p)
  · rfl
  · simp [setPc, hpc]
  · intro q hq
    simp [setPc, setTask, hq]

theorem returns (s : Ipc β) (p : Slot) {record : IpcRecord β} :
    KeepsSends s ((s.setRecord p record).setPc p .user) := by
  apply of_out (p := p)
  · rfl
  · simp [setPc, Pc.dest]
  · intro q hq
    simp [setPc, setRecord, hq]

end KeepsSends

/-! ## All steps -/

/-- `msg_send` finds the destination and sets `send_to`. -/
def startSend (s : Ipc β) (p : Slot) (dst : Int) (msg : Message β) : Ipc β :=
  ((s.setTask p { s.task p with sendTo := dst }).setRecord p
    { s.record p with accepted := (s.record p).accepted ++ [(dst, stamp p msg)] }).setPc p
    (.sendFill dst (stamp p msg))

/-- `msg_recv` copies the message of the sender in slot `q`. -/
def copySend (s : Ipc β) (p : Slot) (src : Int) (q : Slot) : Ipc β :=
  (s.setRecord q { s.record q with
    copied := (s.record q).copied ++ [(pidOf p, (s.task q).msg)] }).setPc p
    (.recvRelease src q (s.task q).msg)

/-- `inform_received` takes back `send_to` of the sender in slot `q`. -/
def clearSend (s : Ipc β) (p : Slot) (src : Int) (q : Slot) (msg : Message β) : Ipc β :=
  (s.setTask q { s.task q with sendTo := pidNoTask }).setPc p (.recvCount src q msg)

theorem startSend_pc (dst : Int) (msg : Message β) (x : Slot) :
    (s.startSend p dst msg).pc x = if x = p then .sendFill dst (stamp p msg) else s.pc x :=
  Function.update_apply ..

theorem startSend_sendTo (dst : Int) (msg : Message β) (x : Slot) :
    ((s.startSend p dst msg).task x).sendTo = if x = p then dst else (s.task x).sendTo := by
  have htask : (s.startSend p dst msg).task x =
      if x = p then { s.task p with sendTo := dst } else s.task x := setTask_task s p _ x
  rw [htask]
  split <;> rfl

theorem startSend_record (dst : Int) (msg : Message β) (x : Slot) :
    (s.startSend p dst msg).record x =
      if x = p then { s.record p with accepted := (s.record p).accepted ++ [(dst, stamp p msg)] }
      else s.record x :=
  Function.update_apply ..

theorem copySend_pc (src : Int) (x : Slot) :
    (s.copySend p src q).pc x = if x = p then .recvRelease src q (s.task q).msg else s.pc x :=
  Function.update_apply ..

theorem copySend_record (src : Int) (x : Slot) :
    (s.copySend p src q).record x =
      if x = q then { s.record q with
        copied := (s.record q).copied ++ [(pidOf p, (s.task q).msg)] }
      else s.record x :=
  Function.update_apply ..

theorem clearSend_pc (src : Int) (msg : Message β) (x : Slot) :
    (s.clearSend p src q msg).pc x = if x = p then .recvCount src q msg else s.pc x :=
  Function.update_apply ..

theorem clearSend_sendTo (src : Int) (msg : Message β) (x : Slot) :
    ((s.clearSend p src q msg).task x).sendTo =
      if x = q then (pidNoTask : Int) else (s.task x).sendTo := by
  have htask : (s.clearSend p src q msg).task x =
      if x = q then { s.task q with sendTo := pidNoTask } else s.task x := setTask_task s q _ x
  rw [htask]
  split <;> rfl

/-- What a step of task `p` can do to the tasks in `msg_send`. -/
inductive SendersStep (s : Ipc β) (p : Slot) (t : Ipc β) : Prop
  | keeps (hkeeps : KeepsSends s t)
  | start (dst : Int) (msg : Message β) (q : Slot) (hpc : s.pc p = .sendCheck dst msg)
      (hdst : s.pidToTask dst = some q) (ht : t = s.startSend p dst msg)
  | copy (src : Int) (q : Slot) (hpc : s.pc p = .recvCopy src q) (ht : t = s.copySend p src q)
  | clear (src : Int) (q : Slot) (msg : Message β) (hpc : s.pc p = .recvInform src q msg)
      (ht : t = s.clearSend p src q msg)

open KeepsSends in
theorem run_senders (hrun : s.run p = some t) : SendersStep s p t := by
  cases hpc : s.pc p with
  | user | waiting | sending | receiving => simp [Ipc.run, hpc] at hrun
  | sendClear | recvClear | recvSet | recvIntrClear | recvRelease =>
      simp only [Ipc.run, hpc] at hrun
      cases hrun
      exact .keeps (leave s p rfl)
  | sendCheck dst msg =>
      simp only [Ipc.run, hpc] at hrun
      split at hrun
      · next hdst =>
          obtain ⟨q, hq⟩ := Option.isSome_iff_exists.mp hdst
          cases hrun
          exact .start dst msg q hpc hq rfl
      · cases hrun
        exact .keeps (updatePc s p (by simp [Pc.dest]))
  | sendFill dst msg | sendCount dst msg =>
      simp only [Ipc.run, hpc] at hrun
      cases hrun
      exact .keeps (move s p rfl fun _ => by rw [hpc]; rfl)
  | sendBlock dst msg | recvBlock src msg =>
      simp only [Ipc.run, hpc] at hrun
      cases hrun
      exact .keeps (updatePc s p fun _ => by rw [hpc]; rfl)
  | sendAppend dst msg =>
      simp only [Ipc.run, hpc, Option.bind_eq_bind, Option.bind_eq_some_iff] at hrun
      obtain ⟨r, -, k, -, hrun⟩ := hrun
      cases hrun
      refine .keeps ((updateLinks s k).trans (updatePc _ p fun _ => ?_))
      change _ = (s.pc p).dest
      rw [hpc]
      rfl
  | sendReturn =>
      simp only [Ipc.run, hpc] at hrun
      cases hrun
      exact .keeps (returns s p)
  | recvCheck src msg =>
      simp only [Ipc.run, hpc] at hrun
      split at hrun <;> cases hrun
      · exact .keeps (updatePc s p (by simp [Pc.dest]))
      · exact .keeps (leave s p rfl)
  | recvSelect src msg =>
      simp only [Ipc.run, hpc] at hrun
      split_ifs at hrun <;> cases hrun <;> exact .keeps (updatePc s p (by simp [Pc.dest]))
  | recvIntrTake src msg =>
      simp only [Ipc.run, hpc] at hrun
      cases hrun
      refine .keeps ((updateTask s p ?_).trans (returns _ p))
      rfl
  | recvPop src =>
      simp only [Ipc.run, hpc] at hrun
      split at hrun <;> cases hrun
      exact .keeps ((updateLinks s _).trans (updatePc _ p (by simp [Pc.dest])))
  | recvRemove src =>
      simp only [Ipc.run, hpc, Option.bind_eq_bind, Option.bind_eq_some_iff] at hrun
      obtain ⟨q, -, k, -, hrun⟩ := hrun
      cases hrun
      exact .keeps ((updateLinks s k).trans (updatePc _ p (by simp [Pc.dest])))
  | recvCopy src q =>
      simp only [Ipc.run, hpc] at hrun
      cases hrun
      exact .copy src q hpc rfl
  | recvInform src q msg =>
      simp only [Ipc.run, hpc] at hrun
      cases hrun
      exact .clear src q msg hpc rfl
  | recvCount src q msg =>
      simp only [Ipc.run, hpc] at hrun
      cases hrun
      refine .keeps ((updateTask s q ?_).trans (returns _ p))
      rfl

theorem SendersStep.exist (h : SendersStep s p t) : t.exist = s.exist := by
  cases h with
  | keeps hkeeps => exact hkeeps.exist
  | start dst msg q hpc hdst ht => rw [ht]; rfl
  | copy src q hpc ht => rw [ht]; rfl
  | clear src q msg hpc ht => rw [ht]; rfl

/-- A running task moves on itself only. -/
theorem run_pc (hrun : s.run p = some t) (hq : q ≠ p) : t.pc q = s.pc q := by
  have hpc (u : Ipc β) (pc : Pc β) : (u.setPc p pc).pc q = u.pc q := by
    rw [setPc_pc, if_neg hq]
  cases hcase : s.pc p with
  | user | waiting | sending | receiving => simp [Ipc.run, hcase] at hrun
  | sendAppend | recvRemove =>
      simp only [Ipc.run, hcase, Option.bind_eq_bind, Option.bind_eq_some_iff] at hrun
      obtain ⟨r, -, k, -, hrun⟩ := hrun
      cases hrun
      exact hpc _ _
  | recvPop =>
      simp only [Ipc.run, hcase] at hrun
      split at hrun <;> cases hrun
      exact hpc _ _
  | sendCheck | recvCheck | recvSelect =>
      simp only [Ipc.run, hcase] at hrun
      split_ifs at hrun <;> cases hrun <;> exact hpc _ _
  | _ =>
      simp only [Ipc.run, hcase] at hrun
      cases hrun
      exact hpc _ _

open KeepsSends in
theorem wake_keeps (s : Ipc β) (p : Slot) : KeepsSends s (s.wake p) := by
  unfold wake
  split
  · exact (updateCheck s p .idle).trans (updatePc _ p (by simp [Pc.dest]))
  · exact (updateCheck s p .idle).trans (updatePc _ p (by simp [Pc.dest]))
  · exact updateCheck s p .idle

open KeepsSends in
theorem ipcCheck_keeps (hstep : s.ipcCheck p = some t) : KeepsSends s t := by
  unfold ipcCheck at hstep
  split at hstep
  · cases hstep
  · split at hstep
    case h_4 =>
      dsimp only at hstep
      split_ifs at hstep <;> cases hstep <;> exact updateCheck s p _
    case h_6 sender _ =>
      simp only [Option.bind_eq_bind, Option.bind_eq_some_iff] at hstep
      obtain ⟨q, -, found, -, hstep⟩ := hstep
      split at hstep <;> cases hstep <;> exact updateCheck s p _
    case h_7 =>
      cases hstep
      refine (updateTask s p ?_).trans (wake_keeps _ p)
      rfl
    case h_8 =>
      split at hstep <;> cases hstep
      · exact updateCheck s p _
      · exact wake_keeps s p
    all_goals split at hstep <;> cases hstep <;> exact updateCheck s p _

theorem wake_pc (s : Ipc β) (hq : q ≠ p) : (s.wake p).pc q = s.pc q := by
  unfold wake
  split
  · rw [setPc_pc, if_neg hq]
    rfl
  · rw [setPc_pc, if_neg hq]
    rfl
  · rfl

/-- The check can move on the blocked task only. -/
theorem ipcCheck_pc (hstep : s.ipcCheck p = some t) :
    s.Blocked p = true ∧ ∀ q, q ≠ p → t.pc q = s.pc q := by
  unfold ipcCheck at hstep
  split at hstep
  · cases hstep
  · next hblocked =>
      refine ⟨not_not.mp hblocked, fun q hq => ?_⟩
      split at hstep
      case h_4 =>
        dsimp only at hstep
        split_ifs at hstep <;> cases hstep <;> rfl
      case h_6 sender _ =>
        simp only [Option.bind_eq_bind, Option.bind_eq_some_iff] at hstep
        obtain ⟨r, -, found, -, hstep⟩ := hstep
        split at hstep <;> cases hstep <;> rfl
      case h_7 =>
        cases hstep
        exact wake_pc _ hq
      case h_8 =>
        split at hstep <;> cases hstep
        · rfl
        · exact wake_pc s hq
      all_goals split at hstep <;> cases hstep <;> rfl

open KeepsSends in
theorem informIntr_keeps (s : Ipc β) (dst : Int) : KeepsSends s (s.informIntr dst) := by
  unfold informIntr
  split
  · exact ⟨rfl, fun _ _ => rfl, fun _ _ => rfl, fun _ _ => rfl, fun _ _ => rfl⟩
  · exact updateTask s _ rfl

open KeepsSends in
/-- Steps other than those of a running task leave the tasks in `msg_send` alone. -/
theorem ipcStep_senders {c : IpcCall β} (hstep : ipcStep s c = some t) :
    (∃ p, c = .run p ∧ SendersStep s p t) ∨ KeepsSends s t := by
  cases c with
  | send p dst msg | recv p src msg | wait p | resume p =>
      simp only [ipcStep] at hstep
      split at hstep <;> cases hstep
      exact Or.inr (updatePc s p (by simp [Pc.dest]))
  | intr dst =>
      cases hstep
      exact Or.inr (informIntr_keeps s dst)
  | check p => exact Or.inr (ipcCheck_keeps hstep)
  | run p => exact Or.inl ⟨p, rfl, run_senders hstep⟩

end Ipc

/-! ## A task in `msg_send` gets to `task_block` -/

/-- The steps `msg_send` has left until the task is blocked, once it has set `send_to`. -/
def Pc.toBlock : Pc β → Nat
  | .sendFill _ _ => 4
  | .sendAppend _ _ => 3
  | .sendCount _ _ => 2
  | .sendBlock _ _ => 1
  | _ => 0

theorem Pc.sending_of_toBlock {pc : Pc β} {dst : Int} (hdest : pc.dest = some dst)
    (hblock : pc.toBlock = 0) : ∃ msg, pc = .sending dst msg := by
  cases pc with
  | sending dst' msg =>
      obtain rfl := Option.some.inj hdest
      exact ⟨msg, rfl⟩
  | sendFill | sendAppend | sendCount | sendBlock => simp [Pc.toBlock] at hblock
  | _ => simp [Pc.dest] at hdest

namespace Ipc

variable {s t u : Ipc β} {p q : Slot}

/-- The sends of `s` are those of `t`, where more of their tasks may be blocked. -/
structure SendsOn (s t : Ipc β) : Prop where
  exist : t.exist = s.exist
  dest : ∀ p, (t.pc p).dest = (s.pc p).dest
  sendTo : ∀ p, (t.task p).sendTo = (s.task p).sendTo
  record : ∀ p, t.record p = s.record p
  still : ∀ p, (s.pc p).toBlock = 0 → t.pc p = s.pc p

theorem SendsOn.refl (s : Ipc β) : SendsOn s s :=
  ⟨rfl, fun _ => rfl, fun _ => rfl, fun _ => rfl, fun _ _ => rfl⟩

theorem SendsOn.trans (h : SendsOn s t) (h' : SendsOn t u) : SendsOn s u where
  exist := h'.exist.trans h.exist
  dest p := (h'.dest p).trans (h.dest p)
  sendTo p := (h'.sendTo p).trans (h.sendTo p)
  record p := (h'.record p).trans (h.record p)
  still p hp := by
    have ht := h.still p hp
    rw [h'.still p (by rw [ht, hp]), ht]

/-- Task `p` goes on to `pc`, one step nearer to `task_block`. -/
theorem SendsOn.of_setPc {n : Nat} {pc : Pc β} (hdest : pc.dest = (s.pc p).dest)
    (hblock : (s.pc p).toBlock = n + 1) (hexist : t.exist = s.exist) (hpc : t.pc = s.pc)
    (hto : ∀ q, (t.task q).sendTo = (s.task q).sendTo) (hrecord : t.record = s.record) :
    SendsOn s (t.setPc p pc) := by
  refine ⟨hexist, fun q => ?_, hto, fun q => by rw [← hrecord]; rfl, fun q hq => ?_⟩
  · rw [setPc_pc]
    split
    · next heq => rw [heq, hdest]
    · rw [hpc]
  · rw [setPc_pc, if_neg, hpc]
    rintro rfl
    omega

theorem run_sendsOn {n : Nat} (hblock : (s.pc p).toBlock = n + 1) (hrun : s.run p = some t) :
    SendsOn s t ∧ (t.pc p).toBlock = n := by
  have hpc' (u : Ipc β) (pc : Pc β) : ((u.setPc p pc).pc p).toBlock = pc.toBlock := by
    rw [setPc_pc, if_pos rfl]
  cases hpc : s.pc p with
  | sendFill dst msg | sendCount dst msg =>
      simp only [Ipc.run, hpc] at hrun
      cases hrun
      refine ⟨.of_setPc (by rw [hpc]; rfl) hblock rfl rfl (sendTo_setTask ?_) rfl, ?_⟩
      · rfl
      · rw [hpc']
        simp only [hpc, Pc.toBlock] at hblock ⊢
        omega
  | sendAppend dst msg =>
      simp only [Ipc.run, hpc, Option.bind_eq_bind, Option.bind_eq_some_iff] at hrun
      obtain ⟨r, -, k, -, hrun⟩ := hrun
      cases hrun
      refine ⟨.of_setPc (by rw [hpc]; rfl) hblock rfl rfl (fun _ => rfl) rfl, ?_⟩
      rw [hpc']
      simp only [hpc, Pc.toBlock] at hblock ⊢
      omega
  | sendBlock dst msg =>
      simp only [Ipc.run, hpc] at hrun
      cases hrun
      refine ⟨.of_setPc (by rw [hpc]; rfl) hblock rfl rfl (fun _ => rfl) rfl, ?_⟩
      rw [hpc']
      simp only [hpc, Pc.toBlock] at hblock ⊢
      omega
  | _ => simp [hpc, Pc.toBlock] at hblock

/-- If task `p` can go on as long as it is not blocked, it gets there. `P` is what the runs
under consideration keep. -/
theorem exists_blocked {P : Ipc β → Prop}
    (hnext : ∀ s, P s → (s.pc p).toBlock ≠ 0 → ∃ t, s.run p = some t ∧ P t) (n : Nat)
    {s : Ipc β} (hs : P s) (hblock : (s.pc p).toBlock = n) :
    ∃ t, P t ∧ SendsOn s t ∧ (t.pc p).toBlock = 0 := by
  induction n generalizing s with
  | zero => exact ⟨s, hs, .refl s, hblock⟩
  | succ n ih =>
      obtain ⟨t, hrun, ht⟩ := hnext s hs (by omega)
      obtain ⟨hon, hblock'⟩ := run_sendsOn hblock hrun
      obtain ⟨u, hu, hon', hzero⟩ := ih ht hblock'
      exact ⟨u, hu, hon.trans hon', hzero⟩

end Ipc

end ClayFigure
