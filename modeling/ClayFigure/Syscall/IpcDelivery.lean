/-
# Delivery

What `msg_send` and `msg_recv` promise holds in every interleaving: a message is
copied once, by the task it was sent to, before the call that sent it returns, and a
receiver gets what it asked for. No step of a call dereferences a null pointer.
-/

import ClayFigure.Syscall.IpcSteps

namespace ClayFigure

open ClayFigure.Math

variable {β : Type}

/-! ## The invariant over runs -/

namespace IpcInv

variable {s t : Ipc β} {contents : Slot → List Slot} {place : Slot → Place}

/-- A task outside the calls. -/
theorem of_user (h : IpcInv s contents place) {p : Slot} (hexist : s.exist p = true)
    (hpc : s.pc p = .user) {pc : Pc β} (hholds : pc.holds = none)
    (hsend : SendOk s.exist (.user : Pc β) (s.task p) (s.record p) (place p) →
      SendOk s.exist pc (s.task p) (s.record p) (place p))
    (hrecv : (s.task p).recvFlag = 0 → RecvOk s.exist s.copies p pc (s.task p) (contents p)) :
    IpcInv (s.setPc p pc) contents place := by
  have hp := h.tasks p
  have hidle := hp.check.eq_idle (by simp [Ipc.Blocked, hpc])
  rw [hpc] at hp
  rw [Ipc.setPc_eq_put, hidle]
  exact h.put rfl (by rw [hpc, hholds]; rfl)
    ⟨Or.inl hexist, hsend hp.send, hp.stamped, hrecv hp.recv, trivial, hp.received⟩

theorem step (h : IpcInv s contents place) {c : IpcCall β} (hstep : ipcStep s c = some t) :
    ∃ contents place, IpcInv t contents place := by
  cases c with
  | send p dst msg =>
      simp only [ipcStep] at hstep
      split at hstep
      · next hexist hpc =>
          cases hstep
          exact ⟨_, _, h.of_user hexist hpc rfl id id⟩
      · cases hstep
  | recv p src msg =>
      simp only [ipcStep] at hstep
      split at hstep
      · next hexist hpc =>
          cases hstep
          exact ⟨_, _, h.of_user hexist hpc rfl id id⟩
      · cases hstep
  | wait p =>
      simp only [ipcStep] at hstep
      split at hstep
      · next hexist hpc =>
          cases hstep
          exact ⟨_, _, h.of_user hexist hpc rfl id id⟩
      · cases hstep
  | resume p =>
      simp only [ipcStep] at hstep
      split at hstep
      · next hpc hidle =>
          cases hstep
          have hp := h.tasks p
          rw [hpc] at hp
          exact ⟨_, _, h.advancePc hpc nofun hidle rfl hp.send hp.recv⟩
      · cases hstep
  | run p => exact h.run hstep
  | intr dst =>
      cases hstep
      exact ⟨_, _, h.informIntr dst⟩
  | check p => exact h.ipcCheck hstep

end IpcInv

theorem IpcInit.inv {s : Ipc β} (h : IpcInit s) : IpcInv s (fun _ => []) fun _ => .none where
  lists := h.lists
  tasks p := by
    rw [h.pc, h.record, h.check]
    exact ⟨Or.inr rfl, ⟨⟨rfl, h.sendFlag p, rfl⟩, rfl⟩, by simp, h.recvFlag p, trivial,
      fun x hx => absurd hx List.not_mem_nil⟩
  queued r q _ := by simp
  held r q := by simp [h.pc, Pc.holds]
  taken r q := by simp [h.pc, Pc.holds]

/-- Every reachable state has its senders in lists and their messages in places. -/
theorem ipcSystem_inv {s : Ipc β} (hreach : (ipcSystem β).Reachable s) :
    ∃ contents place, IpcInv s contents place :=
  hreach.invariant (P := fun s => ∃ contents place, IpcInv s contents place)
    (fun _ hinit => ⟨_, _, IpcInit.inv hinit⟩)
    fun _ _ _ ⟨_, _, hinv⟩ _ hstep => hinv.step hstep

/-! ## What the calls promise -/

/-- The promises to task `p`: the copies made of its messages are those it sent, in
order, each made by the destination, with at most the last one still missing; no call of
`msg_send` has returned success before its copy; what `msg_recv` returned was an interrupt
or such a copy, from the source asked for; and the list it pops is not empty. -/
structure Delivery (s : Ipc β) (p : Slot) : Prop where
  once : ∃ pending, (s.record p).accepted = (s.record p).copied ++ pending ∧ pending.length ≤ 1
  stamped : ∀ x ∈ (s.record p).accepted, x.2.src = pidOf p
  succeeded : (s.record p).succeeded ≤ (s.record p).copied.length
  returning : s.pc p = .sendReturn → (s.record p).succeeded < (s.record p).copied.length
  outside : s.pc p = .user → (s.record p).accepted = (s.record p).copied ∧
    (s.record p).succeeded = (s.record p).accepted.length
  received : ∀ x ∈ (s.record p).received, x.2.src = recvFromInt ∨
    ∃ q, x.2.src = pidOf q ∧ (pidOf p, x.2) ∈ (s.record q).copied
  fromPid : ∀ x ∈ (s.record p).received, ∀ q, x.1 = pidOf q → x.2.src = pidOf q
  fromInt : ∀ x ∈ (s.record p).received, x.1 = recvFromInt → x.2.src = recvFromInt
  pop : ∀ src, s.pc p = .recvPop src → s.links.listEmpty p = false

/-- What was accepted, when all but at most the last message is copied. -/
theorem copied_of_accepted {record : IpcRecord β} {dst : Int} {msg : Message β}
    (haccepted : record.accepted = record.copied ++ [(dst, msg)] ∨
      record.accepted = record.copied) (hlen : record.succeeded + 1 = record.accepted.length) :
    (∃ pending, record.accepted = record.copied ++ pending ∧ pending.length ≤ 1) ∧
      record.succeeded ≤ record.copied.length := by
  rcases haccepted with haccepted | haccepted
  · rw [haccepted, List.length_append, List.length_singleton] at hlen
    exact ⟨⟨_, haccepted, by simp⟩, by omega⟩
  · rw [haccepted] at hlen
    exact ⟨⟨[], by simp [haccepted], by simp⟩, by omega⟩

theorem Posted.accepted {flag : BitVec 64} {dst : Int} {msg : Message β} {task : IpcTask β}
    {record : IpcRecord β} {b : Place} (h : Posted flag dst msg task record b) :
    record.accepted = record.copied ++ [(dst, msg)] ∨ record.accepted = record.copied := by
  cases b with
  | none => exact h.elim
  | queued r | held r => exact Or.inl h.2.2.2
  | copied r => exact Or.inr h.2.2
  | gone => exact Or.inr h.2

/-- The record of a sender at any point of its call. -/
theorem SendOk.copied {exist : Slot → Bool} {pc : Pc β} {task : IpcTask β}
    {record : IpcRecord β} {b : Place} (h : SendOk exist pc task record b) :
    (∃ pending, record.accepted = record.copied ++ pending ∧ pending.length ≤ 1) ∧
      record.succeeded ≤ record.copied.length := by
  cases pc with
  | sendFill dst msg =>
      obtain ⟨-, -, -, -, haccepted, hlen⟩ := h
      exact copied_of_accepted (Or.inl haccepted) hlen
  | sendAppend dst msg =>
      obtain ⟨-, -, -, -, haccepted, hlen, -⟩ := h
      exact copied_of_accepted (Or.inl haccepted) hlen
  | sendCount | sendBlock | sending => exact copied_of_accepted h.1.accepted h.2
  | _ =>
      obtain ⟨⟨-, -, haccepted⟩, hlen⟩ := h
      rw [haccepted] at hlen
      exact ⟨⟨[], by simp [haccepted], by simp⟩, by omega⟩

/-- Every interleaving delivers. -/
theorem ipcSystem_delivery {s : Ipc β} (hreach : (ipcSystem β).Reachable s) (p : Slot) :
    Delivery s p := by
  obtain ⟨contents, place, h⟩ := ipcSystem_inv hreach
  have hp := h.tasks p
  obtain ⟨honce, hsucceeded⟩ := hp.send.copied
  refine ⟨honce, hp.stamped, hsucceeded, fun hpc => ?_, fun hpc => ?_, fun x hx => ?_,
    fun x hx q hq => ?_, fun x hx hint => ?_, fun src hpc => ?_⟩
  · rw [hpc] at hp
    obtain ⟨⟨-, -, haccepted⟩, hlen⟩ := hp.send
    rw [haccepted] at hlen
    omega
  · rw [hpc] at hp
    exact ⟨hp.send.1.2.2, hp.send.2⟩
  · rcases hp.received x hx with hintr | ⟨q, -, htaken⟩
    · exact Or.inl hintr.1
    · exact Or.inr ⟨q, htaken⟩
  · rcases hp.received x hx with ⟨-, hany | hint⟩ | ⟨q', hany | hpid, htaken⟩
    · exact absurd (hq.symm.trans hany) (Ipc.pidOf_ne_recvFromAny q)
    · exact absurd (hq.symm.trans hint) (Ipc.pidOf_ne_recvFromInt q)
    · exact absurd (hq.symm.trans hany) (Ipc.pidOf_ne_recvFromAny q)
    · rw [htaken.1, ← hpid, hq]
  · rcases hp.received x hx with hintr | ⟨q, hany | hpid, -⟩
    · exact hintr.1
    · rw [hint] at hany
      cases hany
    · exact absurd (hpid.symm.trans hint) (Ipc.pidOf_ne_recvFromInt q)
  · have hexist := h.exist_of_ne_user (p := p) (by simp [hpc])
    rw [hpc] at hp
    rw [Bool.eq_false_iff]
    exact fun hempty => hp.recv.2.2 ((h.lists.listEmpty_iff hexist).mp hempty)

/-! ## No null pointer -/

/-- A task that is in a call and not blocked can make its next step. -/
theorem ipcSystem_run {s : Ipc β} (hreach : (ipcSystem β).Reachable s) {p : Slot}
    (hpc : s.pc p ≠ .user) (hblocked : s.Blocked p = false) : (s.run p).isSome := by
  obtain ⟨contents, place, h⟩ := ipcSystem_inv hreach
  have hp := h.tasks p
  have hexist := h.exist_of_ne_user hpc
  cases hcase : s.pc p with
  | user => exact absurd hcase hpc
  | waiting | sending | receiving => simp [Ipc.Blocked, hcase] at hblocked
  | sendAppend dst msg =>
      rw [hcase] at hp
      obtain ⟨⟨r, hdst, hr⟩, hplace, -, hto, -⟩ := hp.send
      have hreceiver : s.pidToTask (s.task p).sendTo = some r :=
        Ipc.pidToTask_eq_some.mpr ⟨hto.trans hdst, hr⟩
      have hloose : Heap.Loose (s.exist · = true) contents p := by
        intro r' hr' hmem
        have hqueued := (h.queued r' p hr').mp hmem
        simp [hplace] at hqueued
      obtain ⟨k, hk, -⟩ := h.lists.listAppend hr hloose
      simp [Ipc.run, hcase, hreceiver, hk]
  | recvPop src =>
      rw [hcase] at hp
      obtain ⟨q, xs, hcons⟩ := List.exists_cons_of_ne_nil hp.recv.2.2
      obtain ⟨k, hk, -⟩ := h.lists.listPop hexist hcons
      simp [Ipc.run, hcase, hk]
  | recvRemove src =>
      rw [hcase] at hp
      obtain ⟨-, q, hq, hqexist, hmem⟩ := hp.recv
      obtain ⟨pre, post, hsplit⟩ := List.append_of_mem hmem
      obtain ⟨k, hk, -⟩ := h.lists.listRemove hexist pre post hsplit
      have hsender : s.pidToTask src = some q := Ipc.pidToTask_eq_some.mpr ⟨hq, hqexist⟩
      simp [Ipc.run, hcase, hsender, hk]
  | sendCheck | recvCheck | recvSelect =>
      simp only [Ipc.run, hcase]
      split_ifs <;> rfl
  | _ => simp [Ipc.run, hcase]

/-! ## A start -/

/-- Two tasks, in slots 0 and 1. -/
def bootIpc : Ipc Unit where
  exist p := p = 0 ∨ p = 1
  service _ := none
  task _ := ⟨⟨0, 0, ()⟩, pidNoTask, pidNoTask, 0, 0, 0⟩
  record _ := ⟨[], [], 0, []⟩
  links := (Heap.initList ⟨fun _ => none, fun _ => none⟩ 0).initList 1
  pc _ := .user
  check _ := .idle

theorem bootIpc_init : IpcInit bootIpc where
  lists := by
    have hblank : Heap.Holds (⟨fun _ => none, fun _ => none⟩ : Heap Slot Slot)
        (fun l => l ≠ 0 ∧ False) fun _ => [] :=
      ⟨fun _ hl => hl.2.elim, fun _ hl => hl.2.elim, fun _ _ hl => hl.2.elim, fun _ _ => rfl⟩
    have hfirst := hblank.initList
    rw [Function.update_eq_self_iff.mpr rfl] at hfirst
    have hother (l : Slot) : l = 0 ∨ False ↔ l ≠ 1 ∧ l = 0 := by
      constructor
      · rintro (rfl | hfalse)
        · exact ⟨by decide, rfl⟩
        · exact hfalse.elim
      · exact fun hl => Or.inl hl.2
    have hsecond := (hfirst.congr_used hother).initList
    rw [Function.update_eq_self_iff.mpr rfl] at hsecond
    exact hsecond.congr_used fun l => by simp [bootIpc, or_comm]
  pc _ := rfl
  check _ := rfl
  sendFlag _ := rfl
  recvFlag _ := rfl
  record _ := rfl

/-- Task 0 sends a message to task 1, which then receives from task 0, and both calls return. -/
def sendAndReceive : List (IpcCall Unit) :=
  [.send 0 1 ⟨0, 7, ()⟩] ++ List.replicate 6 (.run 0) ++ [.recv 1 0 ⟨0, 0, ()⟩] ++
    List.replicate 4 (.run 1) ++ List.replicate 6 (.check 1) ++ List.replicate 6 (.run 1) ++
      List.replicate 2 (.check 0) ++ [.run 0]

/-- The message is accepted, copied and received once. -/
theorem bootIpc_delivery : ∃ t : Ipc Unit,
    ((t.record 0).accepted = [(1, ⟨0, 7, ()⟩)] ∧ (t.record 0).copied = [(1, ⟨0, 7, ()⟩)] ∧
      (t.record 0).succeeded = 1 ∧ (t.record 1).received = [(0, ⟨0, 7, ()⟩)]) ∧
        ∀ p, Delivery t p := by
  have hrun : (System.runWhen (fun _ _ => true) ipcStep bootIpc sendAndReceive).map
      (fun t => ((t.record 0).accepted, (t.record 0).copied, (t.record 0).succeeded,
        (t.record 1).received)) =
      some ([(1, ⟨0, 7, ()⟩)], [(1, ⟨0, 7, ()⟩)], 1, [(0, ⟨0, 7, ()⟩)]) := by
    rfl
  have hboot : (ipcSystem Unit).Reachable bootIpc := .init bootIpc_init
  obtain ⟨t, hreach, hview⟩ := hboot.exists_run (fun _ _ _ hstep => hstep) hrun
  simp only [Prod.mk.injEq] at hview
  exact ⟨t, hview, ipcSystem_delivery hreach⟩

end ClayFigure
