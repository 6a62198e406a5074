/-
# Cycles of blocked senders

`sys_send_recv` passes on what `msg_send` and `msg_recv` return, and none of their returns is
`SYSCALL_DEADLOCK`: `msg_send` asks whether the destination exists and for nothing else. The
tasks on their way through `msg_send` form a graph, with an edge to the task that `send_to`
names. As long as every send leaves this graph without a cycle, so is the graph of the tasks
in `TASK_SENDING`. A send that closes a cycle is not refused: its tasks all get to
`task_block`.
-/

import ClayFigure.Math.Acyclic
import ClayFigure.Syscall.Senders

namespace ClayFigure

open ClayFigure.Math Relation

variable {β : Type}

namespace Ipc

/-- What `msg_send` or `msg_recv` returns in the next step of task `p`, if it does. -/
def status (s : Ipc β) (p : Slot) : Option SyscallStatus :=
  match s.pc p with
  | .sendCheck dst _ => if (s.pidToTask dst).isSome then none else some .destNotExist
  | .sendReturn => some .success
  | .recvCheck src _ =>
      if src ≠ recvFromAny ∧ src ≠ recvFromInt ∧ (s.pidToTask src).isNone then some .srcNotExist
      else none
  | .recvIntrTake _ _ => some .success
  | .recvCount _ _ _ => some .success
  | _ => none

/-- Task `p` is in `TASK_SENDING` and `send_to` names `q`. -/
def WaitsFor (s : Ipc β) (p q : Slot) : Prop :=
  (∃ dst msg, s.pc p = .sending dst msg) ∧ s.pidToTask (s.task p).sendTo = some q

/-- The next step of task `p` starts a send to a task that leads back to `p`. -/
def ClosesCycle (s : Ipc β) (p : Slot) : Prop :=
  ∃ dst msg q, s.pc p = .sendCheck dst msg ∧ s.pidToTask dst = some q ∧ ReflTransGen s.Sends q p

/-- No send closes a cycle. -/
def SendsOpen (s : Ipc β) : IpcCall β → Prop
  | .run p => ¬ s.ClosesCycle p
  | _ => True

variable {s t u : Ipc β} {p q : Slot}

theorem status_ne_deadlock (s : Ipc β) (p : Slot) : s.status p ≠ some .deadlock := by
  unfold status
  split <;> try split
  all_goals simp

/-! ## No new cycle -/

theorem KeepsSends.sends (h : KeepsSends s t) (hsends : t.Sends p q) : s.Sends p q := by
  obtain ⟨hflight, hto⟩ := hsends
  refine ⟨by rwa [← h.dest p hflight], ?_⟩
  rwa [← h.sendTo p hflight, ← pidToTask_congr h.exist]

/-- `msg_send` sets `send_to`: one more edge. -/
theorem startSend_sends {dst : Int} {msg : Message β} (hpc : s.pc p = .sendCheck dst msg)
    (hdst : s.pidToTask dst = some q) {x y : Slot} :
    (s.startSend p dst msg).Sends x y ↔ x = p ∧ y = q ∨ s.Sends x y := by
  unfold Sends
  rw [startSend_pc, startSend_sendTo,
    pidToTask_congr (s := s) (t := s.startSend p dst msg) rfl]
  by_cases hx : x = p
  · simp [hx, hpc, hdst, Pc.dest, eq_comm]
  · simp [hx]

theorem copySend_sends {src : Int} {x y : Slot} (hsends : (s.copySend p src q).Sends x y) :
    s.Sends x y := by
  obtain ⟨hflight, hto⟩ := hsends
  rw [copySend_pc] at hflight
  split at hflight
  · cases hflight
  · exact ⟨hflight, hto⟩

theorem clearSend_sends {src : Int} {msg : Message β} {x y : Slot}
    (hsends : (s.clearSend p src q msg).Sends x y) : s.Sends x y := by
  obtain ⟨hflight, hto⟩ := hsends
  rw [clearSend_pc] at hflight
  rw [clearSend_sendTo, pidToTask_congr (s := s) (t := s.clearSend p src q msg) rfl] at hto
  split at hflight
  · cases hflight
  · refine ⟨hflight, ?_⟩
    split at hto
    · rw [pidToTask_pidNoTask] at hto
      cases hto
    · exact hto

/-- A step that closes no cycle leaves none. -/
theorem acyclic_step {c : IpcCall β} (h : Acyclic s.Sends) (hopen : s.SendsOpen c)
    (hstep : ipcStep s c = some t) : Acyclic t.Sends := by
  rcases ipcStep_senders hstep with ⟨p, rfl, hsenders⟩ | hkeeps
  · cases hsenders with
    | keeps hkeeps => exact h.mono fun _ _ => hkeeps.sends
    | start dst msg q hpc hdst ht =>
        have hback : ¬ ReflTransGen s.Sends q p := fun hback => hopen ⟨dst, msg, q, hpc, hdst, hback⟩
        exact h.insert hback fun x y hsends => ((startSend_sends hpc hdst).mp (ht ▸ hsends)).symm
    | copy src q hpc ht => exact h.mono fun x y hsends => copySend_sends (ht ▸ hsends)
    | clear src q msg hpc ht => exact h.mono fun x y hsends => clearSend_sends (ht ▸ hsends)
  · exact h.mono fun _ _ => hkeeps.sends

/-! ## All tasks of a cycle get to `task_block` -/

theorem steps_block (hreach : (ipcSystem β).Reachable s) (p : Slot) :
    ∃ t, (ipcSystem β).Steps s t ∧ SendsOn s t ∧ (t.pc p).toBlock = 0 := by
  refine exists_blocked (fun t hsteps hblock => ?_) _ .refl rfl
  have hrun : (t.run p).isSome := by
    apply ipcSystem_run (hsteps.reachable hreach)
    · intro huser
      simp [huser, Pc.toBlock] at hblock
    · unfold Blocked
      split <;> simp_all [Pc.toBlock]
  obtain ⟨u, hu⟩ := Option.isSome_iff_exists.mp hrun
  exact ⟨u, hu, hsteps.tail ⟨.run p, hu⟩⟩

theorem steps_block_all (ps : List Slot) (hreach : (ipcSystem β).Reachable s) :
    ∃ t, (ipcSystem β).Steps s t ∧ SendsOn s t ∧ ∀ p ∈ ps, (t.pc p).toBlock = 0 := by
  induction ps with
  | nil => exact ⟨s, .refl, .refl s, by simp⟩
  | cons p ps ih =>
      obtain ⟨t, hsteps, hon, hall⟩ := ih
      obtain ⟨u, hsteps', hon', hblock⟩ := steps_block (hsteps.reachable hreach) p
      refine ⟨u, hsteps.trans hsteps', hon.trans hon', fun q hq => ?_⟩
      rcases List.mem_cons.mp hq with rfl | hq
      · exact hblock
      · rw [hon'.still q (hall q hq), hall q hq]

/-- What the sends of a state are, their tasks can come to wait for. -/
theorem steps_waitsFor (hreach : (ipcSystem β).Reachable s) :
    ∃ t, (ipcSystem β).Steps s t ∧ ∀ p q, s.Sends p q → t.WaitsFor p q := by
  obtain ⟨t, hsteps, hon, hall⟩ := steps_block_all (List.finRange numTasks) hreach
  refine ⟨t, hsteps, fun p q ⟨hflight, hto⟩ => ?_⟩
  obtain ⟨dst, hdst⟩ := Option.isSome_iff_exists.mp hflight
  rw [← hon.dest p] at hdst
  obtain ⟨msg, hpc⟩ := Pc.sending_of_toBlock hdst (hall p (List.mem_finRange p))
  refine ⟨⟨dst, msg, hpc⟩, ?_⟩
  rw [hon.sendTo p, pidToTask_congr hon.exist]
  exact hto

theorem cycle_of_closes (hreach : (ipcSystem β).Reachable s)
    (hstep : ipcStep s (.run p) = some t) (hcloses : s.ClosesCycle p) :
    ∃ u, (ipcSystem β).Steps t u ∧ TransGen u.WaitsFor p p := by
  obtain ⟨u, hsteps, hwaits⟩ := steps_waitsFor (hreach.step (a := IpcCall.run p) trivial hstep)
  obtain ⟨dst, msg, q, hpc, hdst, hback⟩ := hcloses
  have ht : t = s.startSend p dst msg := by
    have hrun : s.run p = some t := hstep
    simp only [Ipc.run, hpc, hdst, Option.isSome_some, if_true] at hrun
    cases hrun
    rfl
  have hcycle : TransGen t.Sends p p := by
    rw [ht]
    refine TransGen.head' ((startSend_sends hpc hdst).mpr (Or.inl ⟨rfl, rfl⟩))
      (ReflTransGen.mono (fun x y hsends => ?_) _ _ hback)
    exact (startSend_sends hpc hdst).mpr (Or.inr hsends)
  exact ⟨u, hsteps, TransGen.mono hwaits _ _ hcycle⟩

end Ipc

/-! ## The cycles of a run -/

theorem Ipc.acyclic_of_reachable {s : Ipc β}
    (hreach : (ipcSystem β).ReachableWhen Ipc.SendsOpen s) : Acyclic s.Sends := by
  refine hreach.invariant (fun s hinit p hcycle => ?_) fun _ _ _ h hopen hstep =>
    Ipc.acyclic_step h hopen hstep
  obtain ⟨q, ⟨hflight, -⟩, -⟩ := TransGen.head'_iff.mp hcycle
  rw [hinit.pc] at hflight
  cases hflight

/-- If no send closes a cycle, no task blocked in `TASK_SENDING` waits for itself, directly or
through others. A send that closes one does not return `SYSCALL_DEADLOCK`, and its task comes
to wait for itself. -/
theorem ipcSystem_deadlock :
    (∀ s, (ipcSystem β).ReachableWhen Ipc.SendsOpen s → Acyclic s.WaitsFor) ∧
      ∀ (s : Ipc β) c t, (ipcSystem β).ReachableWhen Ipc.SendsOpen s → ipcStep s c = some t →
        ¬ s.SendsOpen c → ∃ p, c = .run p ∧ s.status p ≠ some .deadlock ∧
          ∃ u, (ipcSystem β).Steps t u ∧ TransGen u.WaitsFor p p := by
  refine ⟨fun s hreach => ?_, fun s c t hreach hstep hcloses => ?_⟩
  · apply (Ipc.acyclic_of_reachable hreach).mono
    rintro p q ⟨⟨dst, msg, hpc⟩, hto⟩
    exact ⟨by rw [hpc]; rfl, hto⟩
  · cases c with
    | run p =>
        have hreach' : (ipcSystem β).Reachable s := hreach.mono fun _ _ _ => trivial
        exact ⟨p, rfl, s.status_ne_deadlock p,
          Ipc.cycle_of_closes hreach' hstep (not_not.mp hcloses)⟩
    | _ => exact absurd trivial hcloses

/-- Task 0 has called `msg_send` with itself as the destination. -/
def selfIpc : Ipc Unit :=
  ((bootIpc.setPc 0 (.sendClear 0 ⟨0, 7, ()⟩)).setTask 0 (bootIpc.task 0)).setPc 0
    (.sendCheck 0 ⟨0, 7, ()⟩)

theorem selfIpc_reachable : (ipcSystem Unit).ReachableWhen Ipc.SendsOpen selfIpc := by
  have hboot : (ipcSystem Unit).ReachableWhen Ipc.SendsOpen bootIpc := .init bootIpc_init
  have hsend : ipcStep bootIpc (.send 0 0 ⟨0, 7, ()⟩) =
      some (bootIpc.setPc 0 (.sendClear 0 ⟨0, 7, ()⟩)) := rfl
  have hclear : ipcStep (bootIpc.setPc 0 (.sendClear 0 ⟨0, 7, ()⟩)) (.run 0) = some selfIpc := rfl
  refine (hboot.step (a := IpcCall.send 0 0 ⟨0, 7, ()⟩) trivial hsend).step
    (a := IpcCall.run 0) ?_ hclear
  rintro ⟨dst, msg, q, hpc, -⟩
  cases hpc

theorem selfIpc_closes : selfIpc.ClosesCycle 0 :=
  ⟨0, ⟨0, 7, ()⟩, 0, rfl, by decide, .refl⟩

/-- Nothing waits for itself yet, and then task 0 does. -/
theorem selfIpc_waits :
    Acyclic selfIpc.WaitsFor ∧ ∃ t p u, selfIpc.run 0 = some t ∧ (ipcSystem Unit).Steps t u ∧
      TransGen u.WaitsFor p p := by
  refine ⟨ipcSystem_deadlock.1 _ selfIpc_reachable, ?_⟩
  have hstep : ipcStep selfIpc (.run 0) = selfIpc.run 0 := rfl
  obtain ⟨t, ht⟩ := Option.isSome_iff_exists.mp
    (ipcSystem_run (selfIpc_reachable.mono fun _ _ _ => trivial) (p := 0) nofun rfl)
  obtain ⟨p, -, -, u, hsteps, hwaits⟩ := ipcSystem_deadlock.2 _ _ t selfIpc_reachable
    (hstep.trans ht) (not_not.mpr selfIpc_closes)
  exact ⟨t, p, u, ht, hsteps, hwaits⟩

/-- Some run gets to a cycle of blocked senders. -/
theorem ipcSystem_cycle : ¬ ∀ s, (ipcSystem Unit).Reachable s → Acyclic s.WaitsFor := by
  intro hall
  have hreach : (ipcSystem Unit).Reachable selfIpc := selfIpc_reachable.mono fun _ _ _ => trivial
  obtain ⟨t, ht⟩ := Option.isSome_iff_exists.mp (ipcSystem_run hreach (p := 0) nofun rfl)
  have hstep : ipcStep selfIpc (.run 0) = some t := ht
  obtain ⟨u, hsteps, hwaits⟩ := Ipc.cycle_of_closes hreach hstep selfIpc_closes
  exact hall u (hsteps.reachable (hreach.step (a := IpcCall.run 0) trivial hstep)) 0 hwaits

end ClayFigure
