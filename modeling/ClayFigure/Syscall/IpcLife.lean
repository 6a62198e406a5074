/-
# Messages to tasks that come and go

`task_exit`, `task_release_resource` and `task_start` under the interleavings of `msg_send`
and `msg_recv`. A task exits outside the two calls and with whatever is in its `sender_list`:
the place where the senders would be dealt with is a comment that says so. Until it is reaped
its slot still passes `task_exist`. Creation is one step: between `task_alloc` and `init_list`
the pointers of the slot are null.

A slot that was set up once keeps its list after its task is freed. For the invariant of the
interleavings it goes on to exist; `withExist` says so.
-/

import ClayFigure.Syscall.Senders

namespace ClayFigure

open ClayFigure.Math

variable {β : Type}

/-! ## The code -/

namespace Ipc

/-- The first slot that `task_alloc` finds free. -/
def taskAlloc (s : Ipc β) : Option Slot :=
  (List.finRange numTasks).find? fun i => !s.exist i

/-- The slot after `task_alloc` and `init_task_struct`; `default` stands for zeroed words. The
record of the slot goes on. -/
def initTaskStruct [Inhabited β] (s : Ipc β) (p : Slot) : Ipc β :=
  { s with
    exist := Function.update s.exist p true
    task := Function.update s.task p ⟨⟨0, 0, default⟩, pidNoTask, pidNoTask, 0, 0, 0⟩
    links := ((s.links.clear p p).clear p p).initList p
    pc := Function.update s.pc p .user
    check := Function.update s.check p .idle }

/-- `task_free`. -/
def taskFree (s : Ipc β) (p : Slot) : Ipc β :=
  { s with exist := Function.update s.exist p false }

/-- The check of a blocked task. `pid_to_task` of a task that is gone is a null pointer, whose
`send_tag` `list_find` does not find. -/
def taskIpcCheck (s : Ipc β) (p : Slot) : Option (Ipc β) :=
  match s.check p with
  | .findSender sender =>
      if (s.pidToTask sender).isNone then some (s.setCheck p .idle) else s.ipcCheck p
  | _ => s.ipcCheck p

/-- A step of the interleavings, among tasks that come and go. -/
def step (s : Ipc β) : IpcCall β → Option (Ipc β)
  | .check p => s.taskIpcCheck p
  | c => ipcStep s c

end Ipc

/-- The task that starts a call. -/
def IpcCall.caller : IpcCall β → Option Slot
  | .send p _ _ => some p
  | .recv p _ _ => some p
  | .wait p => some p
  | _ => none

/-- The tasks and their messages; `died` is the status `TASK_DIED`. -/
structure IpcLife (β : Type) where
  ipc : Ipc β
  died : Slot → Bool

inductive LifeCall (β : Type)
  | ipc (c : IpcCall β)
  | taskStart
  | taskExit (p : Slot)
  | reap (p : Slot)

/-- `task_start`, if it gets its memory. -/
def IpcLife.taskStart [Inhabited β] (s : IpcLife β) : IpcLife β :=
  match s.ipc.taskAlloc with
  | none => s
  | some p => ⟨s.ipc.initTaskStruct p, Function.update s.died p false⟩

/-- A step of the interleavings, a creation, an exit, or the end of a dead task's slot. -/
def lifeStep [Inhabited β] (s : IpcLife β) : LifeCall β → Option (IpcLife β)
  | .ipc c =>
      if c.caller.any s.died then none
      else (s.ipc.step c).map fun ipc => { s with ipc := ipc }
  | .taskStart => some s.taskStart
  | .taskExit p =>
      match s.ipc.exist p, s.ipc.pc p, s.died p with
      | true, .user, false => some { s with died := Function.update s.died p true }
      | _, _, _ => none
  | .reap p =>
      match s.ipc.exist p, s.died p with
      | true, true => some { s with ipc := s.ipc.taskFree p }
      | _, _ => none

structure LifeInit (s : IpcLife β) : Prop where
  ipc : IpcInit s.ipc
  died : ∀ p, s.died p = false

def lifeSystem (β : Type) [Inhabited β] : System (IpcLife β) (LifeCall β) where
  init := LifeInit
  step s c t := lifeStep s c = some t

/-- A task blocked in `TASK_SENDING` whose message no receiver has copied or is about to copy
is in the `sender_list` of a living task, which `send_to` names. -/
def IpcLife.SendersListed (s : IpcLife β) : Prop :=
  ∀ p dst msg, s.ipc.pc p = .sending dst msg →
    (s.ipc.record p).accepted ≠ (s.ipc.record p).copied →
      (∀ r, (s.ipc.pc r).holds ≠ some (p, false)) →
        ∃ q, s.ipc.pidToTask (s.ipc.task p).sendTo = some q ∧ s.died q = false ∧
          s.ipc.links.listFind q (.elem p) (numTasks + 1) = some true

/-- A message of task `p` to task `q` has not been copied. -/
def Ipc.Pending (s : Ipc β) (p q : Slot) : Prop :=
  (s.pc p).dest.isSome ∧ (s.task p).sendTo = pidOf q ∧ (s.record p).accepted ≠ (s.record p).copied

/-- A task exits when no message to it is pending, and sends are to living tasks. -/
def IpcLife.Orderly (s : IpcLife β) : LifeCall β → Prop
  | .taskExit p => ∀ q, ¬ s.ipc.Pending q p
  | .ipc (.run p) => ∀ dst msg q, s.ipc.pc p = .sendCheck dst msg →
      s.ipc.pidToTask dst = some q → s.died q = false
  | _ => True

/-! ## Slots that have been set up -/

namespace Ipc

variable {s t : Ipc β} {p q : Slot} {used : Slot → Bool}

/-- The same state for those who take the slots in `used` to exist. -/
def withExist (s : Ipc β) (used : Slot → Bool) : Ipc β := { s with exist := used }

theorem pidToTask_withExist (hused : ∀ p, s.exist p = true → used p = true) {pid : Int}
    (hpid : s.pidToTask pid = some q) : (s.withExist used).pidToTask pid = some q := by
  obtain ⟨heq, hexist⟩ := pidToTask_eq_some.mp hpid
  exact pidToTask_eq_some.mpr ⟨heq, hused q hexist⟩

/-- A running task sees the difference only where it asks whether another task exists. -/
theorem run_withExist (hused : ∀ p, s.exist p = true → used p = true)
    (hrun : s.run p = some t) :
    (s.withExist used).run p = some (t.withExist used) ∨
      t = s.setPc p .user ∧
        ((∃ dst msg, s.pc p = .sendCheck dst msg) ∨ ∃ src msg, s.pc p = .recvCheck src msg) := by
  have hpc' : (s.withExist used).pc p = s.pc p := rfl
  cases hpc : s.pc p with
  | user | waiting | sending | receiving => simp [Ipc.run, hpc] at hrun
  | sendCheck dst msg =>
      simp only [Ipc.run, hpc] at hrun
      split at hrun
      · next hdst =>
          obtain ⟨q, hq⟩ := Option.isSome_iff_exists.mp hdst
          cases hrun
          left
          simp only [Ipc.run, hpc', hpc, pidToTask_withExist hused hq]
          rfl
      · cases hrun
        exact Or.inr ⟨rfl, Or.inl ⟨dst, msg, rfl⟩⟩
  | sendAppend dst msg =>
      simp only [Ipc.run, hpc, Option.bind_eq_bind, Option.bind_eq_some_iff] at hrun
      obtain ⟨r, hr, k, hk, hrun⟩ := hrun
      cases hrun
      left
      have hr' : (s.withExist used).pidToTask ((s.withExist used).task p).sendTo = some r :=
        pidToTask_withExist hused hr
      have hk' : (s.withExist used).links.listAppend r (.elem p) = some k := hk
      simp only [Ipc.run, hpc', hpc, hr', hk', Option.bind_eq_bind, Option.bind_some]
      rfl
  | recvCheck src msg =>
      simp only [Ipc.run, hpc] at hrun
      split at hrun
      · cases hrun
        exact Or.inr ⟨rfl, Or.inr ⟨src, msg, rfl⟩⟩
      · next hnamed =>
          cases hrun
          left
          have hnamed' : ¬ (src ≠ recvFromAny ∧ src ≠ recvFromInt ∧
              ((s.withExist used).pidToTask src).isNone) := by
            refine fun hnone => hnamed ⟨hnone.1, hnone.2.1, ?_⟩
            rw [Option.isNone_iff_eq_none, Option.eq_none_iff_forall_ne_some]
            intro q hq
            simp [pidToTask_withExist hused hq] at hnone
          simp only [Ipc.run, hpc', hpc, if_neg hnamed']
          rfl
  | recvRemove src =>
      simp only [Ipc.run, hpc, Option.bind_eq_bind, Option.bind_eq_some_iff] at hrun
      obtain ⟨q, hq, k, hk, hrun⟩ := hrun
      cases hrun
      left
      have hk' : (s.withExist used).links.listRemove (.elem q) = some k := hk
      simp only [Ipc.run, hpc', hpc, pidToTask_withExist hused hq, hk', Option.bind_eq_bind,
        Option.bind_some]
      rfl
  | recvPop src =>
      simp only [Ipc.run, hpc] at hrun
      split at hrun
      · next q k hpop =>
          cases hrun
          left
          have hpop' : (s.withExist used).links.listPop p = some (.elem q, k) := hpop
          simp only [Ipc.run, hpc', hpc, hpop']
          rfl
      · cases hrun
  | recvSelect src msg =>
      left
      have htask : (s.withExist used).task p = s.task p := rfl
      simp only [Ipc.run, hpc', hpc, htask] at hrun ⊢
      split_ifs at hrun ⊢ <;> cases hrun <;> rfl
  | _ =>
      simp only [Ipc.run, hpc] at hrun
      cases hrun
      left
      simp only [Ipc.run, hpc', hpc]
      rfl

theorem informIntr_withExist (hused : ∀ p, s.exist p = true → used p = true) (dst : Int) :
    (s.withExist used).informIntr dst = (s.informIntr dst).withExist used ∨
      s.informIntr dst = s := by
  unfold informIntr
  have hservice : (s.withExist used).service = s.service := rfl
  rw [hservice]
  cases hdst : s.pidToTask ((s.service dst).getD dst) with
  | none => exact Or.inr rfl
  | some q =>
      rw [pidToTask_withExist hused hdst]
      exact Or.inl rfl

theorem wake_withExist (s : Ipc β) (used : Slot → Bool) (p : Slot) :
    (s.withExist used).wake p = (s.wake p).withExist used := by
  unfold wake
  have hpc : (s.withExist used).pc p = s.pc p := rfl
  rw [hpc]
  split <;> rfl

theorem ipcCheck_withExist (hused : ∀ p, s.exist p = true → used p = true)
    (hstep : s.ipcCheck p = some t) : (s.withExist used).ipcCheck p = some (t.withExist used) := by
  have hblocked : (s.withExist used).Blocked p = s.Blocked p := rfl
  have htask : (s.withExist used).task p = s.task p := rfl
  have hcheck : (s.withExist used).check p = s.check p := rfl
  have hlinks : (s.withExist used).links = s.links := rfl
  unfold ipcCheck at hstep ⊢
  rw [hblocked, hcheck, htask, hlinks]
  split at hstep
  · cases hstep
  · next hne =>
      rw [if_neg hne]
      cases hcase : s.check p with
      | findSender sender =>
          simp only [hcase, Option.bind_eq_bind, Option.bind_eq_some_iff] at hstep
          obtain ⟨q, hq, found, hfound, hstep⟩ := hstep
          simp only [pidToTask_withExist hused hq, hfound, Option.bind_eq_bind, Option.bind_some]
          cases found <;> cases hstep <;> rfl
      | clearFlag =>
          simp only [hcase] at hstep ⊢
          cases hstep
          rw [← wake_withExist]
          rfl
      | readSendFlag =>
          simp only [hcase] at hstep ⊢
          split_ifs at hstep ⊢ <;> cases hstep
          · rfl
          · rw [wake_withExist]
      | readFrom =>
          simp only [hcase] at hstep ⊢
          split_ifs at hstep ⊢ <;> cases hstep <;> rfl
      | _ =>
          simp only [hcase] at hstep ⊢
          split_ifs at hstep ⊢ <;> cases hstep <;> rfl

end Ipc

/-! ## The invariant -/

/-- The invariant of the orderly runs, for the slots set up so far. -/
structure LifeInv (s : IpcLife β) (used : Slot → Bool) (contents : Slot → List Slot)
    (place : Slot → Place) : Prop where
  ipc : IpcInv (s.ipc.withExist used) contents place
  used : ∀ p, s.ipc.exist p = true → used p = true
  caller : ∀ p, s.ipc.pc p ≠ .user → s.ipc.exist p = true ∧ s.died p = false
  sender : ∀ p dst, (s.ipc.pc p).dest = some dst →
    (s.ipc.record p).accepted ≠ (s.ipc.record p).copied →
      (s.ipc.task p).sendTo = dst ∧ ∃ q, s.ipc.pidToTask dst = some q ∧ s.died q = false

/-- The message of a queued sender is for the owner of the list and has not been copied. -/
theorem SendOk.of_queued {exist : Slot → Bool} {pc : Pc β} {task : IpcTask β}
    {record : IpcRecord β} {r : Slot} (h : SendOk exist pc task record (.queued r)) :
    pc.dest = some (pidOf r) ∧ record.accepted ≠ record.copied := by
  cases pc with
  | sendCount | sendBlock | sending =>
      obtain ⟨⟨hdst, -, -, haccepted⟩, -⟩ := h
      exact ⟨congrArg some hdst, by simp [haccepted]⟩
  | sendFill | sendAppend => simp [SendOk] at h
  | _ => simp [SendOk, Settled] at h

theorem SendOk.of_copied {exist : Slot → Bool} {pc : Pc β} {task : IpcTask β}
    {record : IpcRecord β} {r : Slot} (h : SendOk exist pc task record (.copied r)) :
    record.accepted = record.copied := by
  cases pc with
  | sendCount | sendBlock | sending => exact h.1.2.2
  | sendFill | sendAppend => simp [SendOk] at h
  | _ => simp [SendOk, Settled] at h

/-- Where the message of a blocked sender is, if it has not been copied. -/
theorem SendOk.of_sending {exist : Slot → Bool} {dst : Int} {msg : Message β} {task : IpcTask β}
    {record : IpcRecord β} {b : Place} (h : SendOk exist (.sending dst msg) task record b)
    (hne : record.accepted ≠ record.copied) :
    ∃ r, dst = pidOf r ∧ (b = .queued r ∨ b = .held r) := by
  obtain ⟨hposted, -⟩ := h
  cases b with
  | none => exact hposted.elim
  | queued r => exact ⟨r, hposted.1, Or.inl rfl⟩
  | held r => exact ⟨r, hposted.1, Or.inr rfl⟩
  | copied r => exact absurd hposted.2.2 hne
  | gone => exact absurd hposted.2 hne

theorem SendOk.mono_exist {exist exist' : Slot → Bool} {pc : Pc β} {task : IpcTask β}
    {record : IpcRecord β} {b : Place} (h : SendOk exist pc task record b)
    (hle : ∀ q, exist q = true → exist' q = true) : SendOk exist' pc task record b := by
  cases pc with
  | sendFill | sendAppend =>
      obtain ⟨⟨r, hdst, hr⟩, hrest⟩ := h
      exact ⟨⟨r, hdst, hle r hr⟩, hrest⟩
  | _ => exact h

theorem RecvOk.mono_exist {exist exist' : Slot → Bool} {copies : Slot → List (Int × Message β)}
    {r : Slot} {pc : Pc β} {task : IpcTask β} {xs : List Slot} (h : RecvOk exist copies r pc task xs)
    (hle : ∀ q, exist q = true → exist' q = true) : RecvOk exist' copies r pc task xs := by
  have hnamed {src : Int} (h : Named exist src) : Named exist' src :=
    h.imp_right (Or.imp_right fun ⟨q, hq, hexist⟩ => ⟨q, hq, hle q hexist⟩)
  cases pc with
  | recvSet | recvBlock | receiving => exact ⟨h.1, h.2.1, hnamed h.2.2⟩
  | recvSelect => exact ⟨h.1, hnamed h.2.1, h.2.2⟩
  | recvRemove =>
      obtain ⟨hflag, q, hq, hexist, hmem⟩ := h
      exact ⟨hflag, q, hq, hle q hexist, hmem⟩
  | _ => exact h

theorem TaskOk.mono_exist {exist exist' : Slot → Bool} {copies : Slot → List (Int × Message β)}
    {p : Slot} {pc : Pc β} {task : IpcTask β} {record : IpcRecord β} {check : CheckPc}
    {xs : List Slot} {b : Place} (h : TaskOk exist copies p pc task record check xs b)
    (hle : ∀ q, exist q = true → exist' q = true) :
    TaskOk exist' copies p pc task record check xs b where
  alive := h.alive.imp_left (hle p)
  send := h.send.mono_exist hle
  stamped := h.stamped
  recv := h.recv.mono_exist hle
  check := h.check
  received := h.received

namespace LifeInv

variable {s t : IpcLife β} {used : Slot → Bool} {contents : Slot → List Slot}
  {place : Slot → Place} {p q : Slot}

theorem of_init (h : LifeInit s) : LifeInv s s.ipc.exist (fun _ => []) fun _ => .none where
  ipc := h.ipc.inv
  used _ hp := hp
  caller p hp := absurd (h.ipc.pc p) hp
  sender p dst hdest := by
    rw [h.ipc.pc p] at hdest
    cases hdest

/-- What the invariant is for. -/
theorem sendersListed (h : LifeInv s used contents place) : s.SendersListed := by
  intro p dst msg hpc hne hheld
  have hsend := (h.ipc.tasks p).send
  change SendOk used (s.ipc.pc p) (s.ipc.task p) (s.ipc.record p) (place p) at hsend
  rw [hpc] at hsend
  obtain ⟨r, hdst, hplace⟩ := hsend.of_sending hne
  obtain ⟨hto, q, hq, halive⟩ := h.sender p dst (by rw [hpc]; rfl) hne
  obtain ⟨hpid, hexist⟩ := Ipc.pidToTask_eq_some.mp hq
  obtain rfl : q = r := Ipc.pidOf_inj (hpid.symm.trans hdst)
  refine ⟨q, by rw [hto, hq], halive, ?_⟩
  rcases hplace with hplace | hplace
  · have hmem : p ∈ contents q := (h.ipc.queued q p (h.used q hexist)).mpr hplace
    have hlen : (contents q).length < numTasks + 1 := by
      have hle := (h.ipc.lists.nodup q (h.used q hexist)).length_le_card
      rw [Fintype.card_fin] at hle
      omega
    have hfind := h.ipc.lists.listFind (t := p) (h.used q hexist) hlen
    rw [decide_eq_true hmem] at hfind
    exact hfind
  · exact absurd ((h.ipc.held q p).mpr hplace) (hheld q)

/-- A slot that is free is in no list, and nothing is in its list. -/
theorem not_queued (h : LifeInv s used contents place) (hp : s.ipc.exist p = false) :
    (∀ r, place p ≠ .queued r) ∧ ∀ q, place q ≠ .queued p := by
  refine ⟨fun r hplace => ?_, fun q hplace => ?_⟩
  · have hsend := (h.ipc.tasks p).send
    rw [hplace] at hsend
    have hdest := hsend.of_queued.1
    have hpc : s.ipc.pc p ≠ .user := by
      intro hpc
      change (s.ipc.pc p).dest = _ at hdest
      rw [hpc] at hdest
      cases hdest
    simp [(h.caller p hpc).1] at hp
  · have hsend := (h.ipc.tasks q).send
    rw [hplace] at hsend
    obtain ⟨hdest, hne⟩ := hsend.of_queued
    obtain ⟨-, q', hq', -⟩ := h.sender q _ hdest hne
    obtain ⟨hpid, hexist⟩ := Ipc.pidToTask_eq_some.mp hq'
    rw [Ipc.pidOf_inj hpid, hexist] at hp
    cases hp

/-! ### Messages -/

/-- What a step does to the sends, when a new one is for a living task. -/
theorem sender_run (h : LifeInv s used contents place) {ipc : Ipc β}
    (hsenders : s.ipc.SendersStep p ipc)
    (halive : ∀ dst msg q, s.ipc.pc p = .sendCheck dst msg → s.ipc.pidToTask dst = some q →
      s.died q = false) :
    ∀ x dst, (ipc.pc x).dest = some dst → (ipc.record x).accepted ≠ (ipc.record x).copied →
      (ipc.task x).sendTo = dst ∧ ∃ q, ipc.pidToTask dst = some q ∧ s.died q = false := by
  intro x dst hdest hne
  rw [Ipc.pidToTask_congr hsenders.exist]
  cases hsenders with
  | keeps hkeeps =>
      have hflight : (ipc.pc x).dest.isSome := by rw [hdest]; rfl
      rw [hkeeps.dest x hflight] at hdest
      rw [hkeeps.accepted x hflight, hkeeps.copied x hflight] at hne
      rw [hkeeps.sendTo x hflight]
      exact h.sender x dst hdest hne
  | start dst' msg q hpc hdst ht =>
      rw [ht, Ipc.startSend_pc] at hdest
      rw [ht, Ipc.startSend_record] at hne
      rw [ht, Ipc.startSend_sendTo]
      by_cases hx : x = p
      · rw [if_pos hx] at hdest
        obtain rfl : dst' = dst := Option.some.inj hdest
        rw [if_pos hx]
        exact ⟨rfl, q, hdst, halive dst' msg q hpc hdst⟩
      · rw [if_neg hx] at hdest hne
        rw [if_neg hx]
        exact h.sender x dst hdest hne
  | copy src q hpc ht =>
      rw [ht, Ipc.copySend_pc] at hdest
      rw [ht, Ipc.copySend_record] at hne
      have hx : x ≠ p := by
        rintro rfl
        rw [if_pos rfl] at hdest
        cases hdest
      rw [if_neg hx] at hdest
      by_cases hq : x = q
      · -- The copy is of the last message that was accepted.
        have hplace : place q = .held p := (h.ipc.held p q).mp (by
          change (s.ipc.pc p).holds = _
          rw [hpc]
          rfl)
        have hsend := (h.ipc.tasks q).send
        rw [hplace] at hsend
        rw [if_pos hq] at hne
        exact absurd hsend.copy.1 hne
      · rw [if_neg hq] at hne
        rw [ht]
        exact h.sender x dst hdest hne
  | clear src q msg hpc ht =>
      rw [ht, Ipc.clearSend_pc] at hdest
      rw [ht] at hne
      rw [ht, Ipc.clearSend_sendTo]
      have hx : x ≠ p := by
        rintro rfl
        rw [if_pos rfl] at hdest
        cases hdest
      rw [if_neg hx] at hdest
      by_cases hq : x = q
      · have hplace : place q = .copied p := (h.ipc.taken p q).mp (by
          change (s.ipc.pc p).holds = _
          rw [hpc]
          rfl)
        have hsend := (h.ipc.tasks q).send
        rw [hplace] at hsend
        rw [hq] at hne
        exact absurd hsend.of_copied hne
      · rw [if_neg hq]
        exact h.sender x dst hdest hne

/-- A task that leaves its call at once. -/
theorem ipc_user (h : LifeInv s used contents place) {pc : Pc β} (hpc : s.ipc.pc p = pc)
    (hcheck : (∃ dst msg, pc = .sendCheck dst msg) ∨ ∃ src msg, pc = .recvCheck src msg) :
    IpcInv ((s.ipc.setPc p .user).withExist used) contents place := by
  have hp := h.ipc.tasks p
  have hpc' : (s.ipc.withExist used).pc p = pc := hpc
  have hidle : (s.ipc.withExist used).check p = .idle := by
    apply hp.check.eq_idle
    rcases hcheck with ⟨dst, msg, rfl⟩ | ⟨src, msg, rfl⟩ <;> simp [Ipc.Blocked, hpc']
  rw [hpc'] at hp
  rcases hcheck with ⟨dst, msg, rfl⟩ | ⟨src, msg, rfl⟩
  · exact h.ipc.advancePc hpc' (by simp) hidle rfl hp.send hp.recv
  · exact h.ipc.advancePc hpc' (by simp) hidle rfl hp.send hp.recv

/-- A running task. -/
theorem run (h : LifeInv s used contents place) {ipc : Ipc β} (hrun : s.ipc.run p = some ipc)
    (halive : ∀ dst msg q, s.ipc.pc p = .sendCheck dst msg → s.ipc.pidToTask dst = some q →
      s.died q = false) :
    ∃ contents place, LifeInv { s with ipc := ipc } used contents place := by
  have hsenders := Ipc.run_senders hrun
  have hcaller (q : Slot) (hq : ipc.pc q ≠ .user) : ipc.exist q = true ∧ s.died q = false := by
    rw [hsenders.exist]
    apply h.caller
    by_cases hqp : q = p
    · intro huser
      rw [hqp] at huser
      simp [Ipc.run, huser] at hrun
    · rwa [← Ipc.run_pc hrun hqp]
  have hinv : ∃ contents place, IpcInv (ipc.withExist used) contents place := by
    rcases Ipc.run_withExist h.used hrun with hrun' | ⟨rfl, hpc⟩
    · exact h.ipc.run hrun'
    · exact ⟨_, _, h.ipc_user rfl hpc⟩
  obtain ⟨contents, place, hipc⟩ := hinv
  refine ⟨contents, place, hipc, fun q hq => h.used q ?_, hcaller, h.sender_run hsenders halive⟩
  rwa [← hsenders.exist]

/-- A step that moves no message; a task that starts a call is alive. -/
theorem keeps (h : LifeInv s used contents place) {ipc : Ipc β}
    (hkeeps : s.ipc.KeepsSends ipc)
    (hipc : ∃ contents place, IpcInv (ipc.withExist used) contents place)
    (hcaller : ∀ q, ipc.pc q ≠ .user →
      s.ipc.pc q ≠ .user ∨ s.ipc.exist q = true ∧ s.died q = false) :
    ∃ contents place, LifeInv { s with ipc := ipc } used contents place := by
  obtain ⟨contents, place, hipc⟩ := hipc
  refine ⟨contents, place, hipc, fun q hq => h.used q ?_, fun q hq => ?_, fun q dst hdest hne => ?_⟩
  · rwa [← hkeeps.exist]
  · rw [hkeeps.exist]
    exact (hcaller q hq).elim (h.caller q) id
  · have hflight : (ipc.pc q).dest.isSome := by
      rw [hdest]
      rfl
    rw [hkeeps.dest q hflight] at hdest
    rw [hkeeps.accepted q hflight, hkeeps.copied q hflight] at hne
    rw [hkeeps.sendTo q hflight, Ipc.pidToTask_congr hkeeps.exist]
    exact h.sender q dst hdest hne

open Ipc.KeepsSends in
/-- A living task starts a call. -/
theorem call (h : LifeInv s used contents place) (hexist : s.ipc.exist p = true)
    (halive : s.died p = false) {pc : Pc β} (hdest : pc.dest = none)
    (hipc : ∃ contents place, IpcInv ((s.ipc.withExist used).setPc p pc) contents place) :
    ∃ contents place, LifeInv { s with ipc := s.ipc.setPc p pc } used contents place := by
  refine h.keeps (updatePc s.ipc p (by simp [hdest])) hipc fun q hq => ?_
  rw [Ipc.setPc_pc] at hq
  by_cases heq : q = p
  · exact Or.inr ⟨heq ▸ hexist, heq ▸ halive⟩
  · rw [if_neg heq] at hq
    exact Or.inl hq

open Ipc.KeepsSends in
theorem check (h : LifeInv s used contents place) {ipc : Ipc β}
    (hstep : s.ipc.taskIpcCheck p = some ipc) :
    ∃ contents place, LifeInv { s with ipc := ipc } used contents place := by
  have hipcCheck (hstep : s.ipc.ipcCheck p = some ipc) :
      ∃ contents place, LifeInv { s with ipc := ipc } used contents place := by
    obtain ⟨hblocked, hpc⟩ := Ipc.ipcCheck_pc hstep
    refine h.keeps (Ipc.ipcCheck_keeps hstep) (h.ipc.ipcCheck (Ipc.ipcCheck_withExist h.used hstep))
      fun q hq => Or.inl ?_
    by_cases heq : q = p
    · intro huser
      rw [heq] at huser
      simp [Ipc.Blocked, huser] at hblocked
    · rwa [← hpc q heq]
  unfold Ipc.taskIpcCheck at hstep
  split at hstep
  · split at hstep
    · cases hstep
      refine h.keeps (updateCheck s.ipc p .idle) ⟨_, _, h.ipc.setCheck (p := p) (c := .idle) trivial⟩
        fun q hq => Or.inl hq
    · exact hipcCheck hstep
  · exact hipcCheck hstep

open Ipc.KeepsSends in
/-- A step of the interleavings. -/
theorem step (h : LifeInv s used contents place) {c : IpcCall β} {ipc : Ipc β}
    (hcaller : c.caller.any s.died = false) (horderly : s.Orderly (.ipc c))
    (hstep : s.ipc.step c = some ipc) :
    ∃ contents place, LifeInv { s with ipc := ipc } used contents place := by
  cases c with
  | check p => exact h.check hstep
  | run p => exact h.run hstep horderly
  | intr dst =>
      cases hstep
      have hpc (q : Slot) : (s.ipc.informIntr dst).pc q = s.ipc.pc q := by
        unfold Ipc.informIntr
        split <;> rfl
      refine h.keeps (Ipc.informIntr_keeps s.ipc dst) ?_ fun q hq => Or.inl (hpc q ▸ hq)
      rcases Ipc.informIntr_withExist h.used dst with heq | heq
      · rw [← heq]
        exact ⟨_, _, h.ipc.informIntr dst⟩
      · rw [heq]
        exact ⟨_, _, h.ipc⟩
  | resume p =>
      simp only [Ipc.step, ipcStep] at hstep
      split at hstep
      · next hpc hidle =>
          cases hstep
          have hresume : ipcStep (s.ipc.withExist used) (.resume p) =
              some ((s.ipc.withExist used).setPc p .user) := by
            simp [ipcStep, Ipc.withExist, hpc, hidle]
          refine h.keeps (updatePc s.ipc p (by simp [Pc.dest])) (h.ipc.step hresume)
            fun q hq => Or.inl ?_
          rw [Ipc.setPc_pc] at hq
          split at hq
          · exact absurd rfl hq
          · exact hq
      · cases hstep
  | send p dst msg | recv p src msg | wait p =>
      simp only [Ipc.step, ipcStep] at hstep
      split at hstep
      · next hexist hpc =>
          cases hstep
          exact h.call hexist hcaller rfl ⟨_, _, h.ipc.of_user (h.used p hexist) hpc rfl id id⟩
      · cases hstep

/-! ### Creation, exit, reaping -/

/-- A new task in a free slot. -/
theorem taskStart [Inhabited β] (h : LifeInv s used contents place)
    (hfree : s.ipc.exist p = false) :
    LifeInv ⟨s.ipc.initTaskStruct p, Function.update s.died p false⟩
      (Function.update used p true) (Function.update contents p []) place := by
  have hpc : s.ipc.pc p = .user := by
    by_contra hne
    simp [(h.caller p hne).1] at hfree
  have hp := h.ipc.tasks p
  have hidle : s.ipc.check p = .idle := by
    apply hp.check.eq_idle
    change s.ipc.Blocked p = false
    simp [Ipc.Blocked, hpc]
  have hne {x : Slot} (hx : s.ipc.pc x ≠ .user) : x ≠ p := by
    rintro rfl
    exact hx hpc
  have hold {x : Slot} (hx : s.ipc.exist x = true) : x ≠ p := by
    rintro rfl
    simp [hfree] at hx
  have hused (x : Slot) (hx : used x = true) : Function.update used p true x = true := by
    rw [Function.update_apply]
    split
    · rfl
    · exact hx
  have hstate : (s.ipc.initTaskStruct p).withExist (Function.update used p true) =
      { s.ipc with
        exist := Function.update used p true
        task := Function.update s.ipc.task p ⟨⟨0, 0, default⟩, pidNoTask, pidNoTask, 0, 0, 0⟩
        links := ((s.ipc.links.clear p p).clear p p).initList p } := by
    have hpcs : Function.update s.ipc.pc p .user = s.ipc.pc :=
      Function.update_eq_self_iff.mpr hpc.symm
    have hchecks : Function.update s.ipc.check p .idle = s.ipc.check :=
      Function.update_eq_self_iff.mpr hidle.symm
    rw [Ipc.initTaskStruct, hpcs, hchecks]
    rfl
  obtain ⟨hout, hempty⟩ := h.not_queued hfree
  refine ⟨?_, fun x hx => ?_, fun x hx => ?_, fun x dst hdest hcopied => ?_⟩
  · rw [hstate]
    have hloose : Heap.Loose (used · = true) contents p :=
      fun r hr hmem => hout r ((h.ipc.queued r p hr).mp hmem)
    refine ⟨(h.ipc.lists.clear_initList hloose p).congr_used fun l => ?_, fun x => ?_,
      fun r x hr => ?_, h.ipc.held, h.ipc.taken⟩
    · by_cases hl : l = p
      · simp [hl]
      · simp [hl, Ipc.withExist]
    · by_cases hx : x = p
      · subst hx
        have hpc' : (s.ipc.withExist used).pc x = .user := hpc
        rw [hpc'] at hp
        simp only [Function.update_self, hpc, hidle]
        obtain ⟨⟨hnone, -, haccepted⟩, hlen⟩ := hp.send
        exact ⟨Or.inr rfl, ⟨⟨hnone, rfl, haccepted⟩, hlen⟩, hp.stamped, rfl, trivial, hp.received⟩
      · simp only [Function.update_of_ne hx]
        exact (h.ipc.tasks x).mono_exist hused
    · by_cases hrp : r = p
      · subst hrp
        simp [hempty x]
      · have hr' : Function.update used p true r = true := hr
        rw [Function.update_of_ne hrp] at hr' ⊢
        exact h.ipc.queued r x hr'
  · by_cases hxp : x = p
    · rw [hxp, Function.update_self]
    · have hx' : Function.update s.ipc.exist p true x = true := hx
      rw [Function.update_of_ne hxp] at hx' ⊢
      exact h.used x hx'
  · have hx' : s.ipc.pc x ≠ .user := by
      intro huser
      apply hx
      change Function.update s.ipc.pc p .user x = .user
      rw [Function.update_apply, huser, ite_self]
    exact ⟨(Function.update_of_ne (hne hx') ..).trans (h.caller x hx').1,
      (Function.update_of_ne (hne hx') ..).trans (h.caller x hx').2⟩
  · have hxp : x ≠ p := by
      rintro rfl
      simp [Ipc.initTaskStruct, Pc.dest] at hdest
    have hpcx : (s.ipc.initTaskStruct p).pc x = s.ipc.pc x := Function.update_of_ne hxp ..
    have htask : (s.ipc.initTaskStruct p).task x = s.ipc.task x := Function.update_of_ne hxp ..
    rw [hpcx] at hdest
    obtain ⟨hto, q, hq, halive⟩ := h.sender x dst hdest hcopied
    obtain ⟨hdst, hexist⟩ := Ipc.pidToTask_eq_some.mp hq
    rw [htask]
    exact ⟨hto, q, Ipc.pidToTask_eq_some.mpr
        ⟨hdst, (Function.update_of_ne (hold hexist) ..).trans hexist⟩,
      (Function.update_of_ne (hold hexist) ..).trans halive⟩

/-- A task exits when no message to it is pending. -/
theorem taskExit (h : LifeInv s used contents place) (hpc : s.ipc.pc p = .user)
    (hpending : ∀ q, ¬ s.ipc.Pending q p) :
    LifeInv { s with died := Function.update s.died p true } used contents place := by
  refine ⟨h.ipc, h.used, fun q hq => ?_, fun q dst hdest hne => ?_⟩
  · have hqp : q ≠ p := by
      rintro rfl
      exact hq hpc
    exact ⟨(h.caller q hq).1, (Function.update_of_ne hqp ..).trans (h.caller q hq).2⟩
  · obtain ⟨hto, r, hr, halive⟩ := h.sender q dst hdest hne
    have hrp : r ≠ p := by
      rintro rfl
      refine hpending q ⟨by rw [hdest]; rfl, ?_, hne⟩
      rw [hto]
      exact (Ipc.pidToTask_eq_some.mp hr).1
    exact ⟨hto, r, hr, (Function.update_of_ne hrp ..).trans halive⟩

/-- The slot of a dead task is freed. -/
theorem reap (h : LifeInv s used contents place) (hdied : s.died p = true) :
    LifeInv { s with ipc := s.ipc.taskFree p } used contents place := by
  have hexist {q : Slot} (hq : q ≠ p) : (s.ipc.taskFree p).exist q = s.ipc.exist q :=
    Function.update_of_ne hq ..
  have halive {q : Slot} (hq : s.died q = false) : q ≠ p := by
    rintro rfl
    simp [hdied] at hq
  refine ⟨h.ipc, fun q hq => ?_, fun q hq => ?_, fun q dst hdest hne => ?_⟩
  · apply h.used q
    by_cases hqp : q = p
    · simp [Ipc.taskFree, hqp] at hq
    · rwa [hexist hqp] at hq
  · obtain ⟨hq, hdied'⟩ := h.caller q hq
    exact ⟨(hexist (halive hdied')).trans hq, hdied'⟩
  · obtain ⟨hto, r, hr, halive'⟩ := h.sender q dst hdest hne
    obtain ⟨hdst, hr⟩ := Ipc.pidToTask_eq_some.mp hr
    exact ⟨hto, r, Ipc.pidToTask_eq_some.mpr ⟨hdst, (hexist (halive halive')).trans hr⟩, halive'⟩

/-- An orderly step keeps the invariant. -/
theorem lifeStep [Inhabited β] (h : LifeInv s used contents place) {c : LifeCall β}
    (horderly : s.Orderly c) (hstep : lifeStep s c = some t) :
    ∃ used contents place, LifeInv t used contents place := by
  cases c with
  | ipc c =>
      simp only [ClayFigure.lifeStep] at hstep
      split at hstep
      · cases hstep
      · next hcaller =>
          obtain ⟨ipc, hipc, rfl⟩ := Option.map_eq_some_iff.mp hstep
          exact ⟨used, h.step (Bool.eq_false_iff.mpr hcaller) horderly hipc⟩
  | taskStart =>
      obtain rfl : s.taskStart = t := Option.some.inj hstep
      unfold IpcLife.taskStart
      split
      · exact ⟨_, _, _, h⟩
      · next p halloc =>
          have hfree : s.ipc.exist p = false := by simpa using List.find?_some halloc
          exact ⟨_, _, _, h.taskStart hfree⟩
  | taskExit p =>
      simp only [ClayFigure.lifeStep] at hstep
      split at hstep
      · next hexist hpc hdied =>
          cases hstep
          exact ⟨_, _, _, h.taskExit hpc horderly⟩
      · cases hstep
  | reap p =>
      simp only [ClayFigure.lifeStep] at hstep
      split at hstep
      · next hexist hdied =>
          cases hstep
          exact ⟨_, _, _, h.reap hdied⟩
      · cases hstep

end LifeInv

theorem lifeInv_of_reachable [Inhabited β] {s : IpcLife β}
    (hreach : (lifeSystem β).ReachableWhen IpcLife.Orderly s) :
    ∃ used contents place, LifeInv s used contents place := by
  refine hreach.invariant (P := fun s => ∃ used contents place, LifeInv s used contents place)
    (fun s hinit => ?_) fun s c t hinv horderly hstep => ?_
  · exact ⟨_, _, _, .of_init hinit⟩
  · obtain ⟨used, contents, place, h⟩ := hinv
    exact h.lifeStep horderly hstep

/-! ## A sender left behind -/

/-- Task `p` is sending to task `q`, which has died and has not received the message. -/
structure IpcLife.Doomed (s : IpcLife β) (p q : Slot) : Prop where
  dest : (s.ipc.pc p).dest = some (pidOf q)
  sendTo : (s.ipc.task p).sendTo = pidOf q
  accepted : (s.ipc.record p).accepted ≠ (s.ipc.record p).copied
  exist : s.ipc.exist q = true
  died : s.died q = true
  user : s.ipc.pc q = .user

theorem lifeStep_run [Inhabited β] {s : IpcLife β} {p : Slot} {ipc : Ipc β}
    (hrun : s.ipc.run p = some ipc) : lifeStep s (.ipc (.run p)) = some { s with ipc := ipc } := by
  have hstep : s.ipc.step (.run p) = some ipc := hrun
  simp [lifeStep, IpcCall.caller, hstep]

/-- A sender that is not blocked yet can go on, and as before all is in order. -/
theorem run_of_toBlock {ipc : Ipc β} {p q : Slot} {used : Slot → Bool}
    {contents : Slot → List Slot} {place : Slot → Place}
    (hused : ∀ p, ipc.exist p = true → used p = true)
    (hipc : IpcInv (ipc.withExist used) contents place) (hto : (ipc.task p).sendTo = pidOf q)
    (hexist : ipc.exist q = true) (hblock : (ipc.pc p).toBlock ≠ 0) :
    ∃ t, ipc.run p = some t ∧ ∃ contents place, IpcInv (t.withExist used) contents place := by
  have hrun : (ipc.run p).isSome := by
    cases hpc : ipc.pc p with
    | sendFill | sendCount | sendBlock => simp [Ipc.run, hpc]
    | sendAppend dst msg =>
        have hsend := (hipc.tasks p).send
        have hpc' : (ipc.withExist used).pc p = .sendAppend dst msg := hpc
        rw [hpc'] at hsend
        have hreceiver : ipc.pidToTask (ipc.task p).sendTo = some q :=
          Ipc.pidToTask_eq_some.mpr ⟨hto, hexist⟩
        have hloose : Heap.Loose (used · = true) contents p := by
          intro r hr hmem
          have hqueued := (hipc.queued r p hr).mp hmem
          simp [hsend.2.1] at hqueued
        obtain ⟨k, hk, -⟩ := hipc.lists.listAppend (hused q hexist) hloose
        have hk' : ipc.links.listAppend q (.elem p) = some k := hk
        simp [Ipc.run, hpc, hreceiver, hk']
    | _ => simp [hpc, Pc.toBlock] at hblock
  obtain ⟨t, ht⟩ := Option.isSome_iff_exists.mp hrun
  refine ⟨t, ht, ?_⟩
  rcases Ipc.run_withExist hused ht with hrun' | ⟨-, ⟨dst, msg, hpc⟩ | ⟨src, msg, hpc⟩⟩
  · exact hipc.run hrun'
  · simp [hpc, Pc.toBlock] at hblock
  · simp [hpc, Pc.toBlock] at hblock

/-- The sender gets to `task_block` and stays there. -/
theorem IpcLife.Doomed.steps [Inhabited β] {s : IpcLife β} {p q : Slot} (h : s.Doomed p q)
    {used : Slot → Bool} (hused : ∀ p, s.ipc.exist p = true → used p = true)
    (hinv : ∃ contents place, IpcInv (s.ipc.withExist used) contents place) :
    ∃ u, (lifeSystem β).Steps s u ∧ ¬ u.SendersListed := by
  let P (ipc : Ipc β) : Prop := (lifeSystem β).Steps s { s with ipc := ipc } ∧
    s.ipc.SendsOn ipc ∧ ∃ contents place, IpcInv (ipc.withExist used) contents place
  have hnext (ipc : Ipc β) (hP : P ipc) (hblock : (ipc.pc p).toBlock ≠ 0) :
      ∃ t, ipc.run p = some t ∧ P t := by
    obtain ⟨hsteps, hon, contents, place, hipc⟩ := hP
    have hexist (r : Slot) : ipc.exist r = s.ipc.exist r := by rw [hon.exist]
    obtain ⟨t, hrun, ht⟩ := run_of_toBlock (fun r hr => hused r (hexist r ▸ hr)) hipc
      ((hon.sendTo p).trans h.sendTo) ((hexist q).trans h.exist) hblock
    obtain ⟨n, hn⟩ := Nat.exists_eq_succ_of_ne_zero hblock
    refine ⟨t, hrun, hsteps.tail ⟨.ipc (.run p), ?_⟩, hon.trans (Ipc.run_sendsOn hn hrun).1, ht⟩
    exact lifeStep_run (s := { s with ipc := ipc }) hrun
  obtain ⟨ipc, ⟨hsteps, hon, contents, place, hipc⟩, -, hblock⟩ :=
    Ipc.exists_blocked hnext _ ⟨.refl, .refl s.ipc, hinv⟩ rfl
  obtain ⟨msg, hpc⟩ := Pc.sending_of_toBlock ((hon.dest p).trans h.dest) hblock
  have hne : (ipc.record p).accepted ≠ (ipc.record p).copied := by
    rw [hon.record p]
    exact h.accepted
  -- Only the destination could hold the message, and it is outside of `msg_recv`.
  have hheld (r : Slot) : (ipc.pc r).holds ≠ some (p, false) := by
    intro hheld
    have hplace : place p = .held r := (hipc.held r p).mp hheld
    have hsend := (hipc.tasks p).send
    have hpc' : (ipc.withExist used).pc p = .sending (pidOf q) msg := hpc
    rw [hpc'] at hsend
    obtain ⟨r', hdst, hqueued | hheld'⟩ := hsend.of_sending hne
    · simp [hplace] at hqueued
    · rw [hplace] at hheld'
      obtain rfl : r = r' := by simpa using hheld'
      have huser : ipc.pc q = .user := by
        rw [hon.still q (by rw [h.user]; rfl), h.user]
      rw [← Ipc.pidOf_inj hdst, huser] at hheld
      cases hheld
  refine ⟨_, hsteps, fun hlisted => ?_⟩
  obtain ⟨r, hr, halive, -⟩ := hlisted p (pidOf q) msg hpc hne hheld
  have hpid : (ipc.task p).sendTo = pidOf r := (Ipc.pidToTask_eq_some.mp hr).1
  rw [hon.sendTo p, h.sendTo] at hpid
  have hdied : s.died r = true := Ipc.pidOf_inj hpid ▸ h.died
  simp [hdied] at halive

/-- A step that is not orderly leaves a sender behind. -/
theorem LifeInv.doomed [Inhabited β] {s t : IpcLife β} {used : Slot → Bool}
    {contents : Slot → List Slot} {place : Slot → Place} (h : LifeInv s used contents place)
    {c : LifeCall β} (hstep : ClayFigure.lifeStep s c = some t) (hbad : ¬ s.Orderly c) :
    ∃ p q, t.Doomed p q ∧ (∀ p, t.ipc.exist p = true → used p = true) ∧
      ∃ contents place, IpcInv (t.ipc.withExist used) contents place := by
  cases c with
  | taskStart => exact absurd trivial hbad
  | reap p => exact absurd trivial hbad
  | taskExit p =>
      simp only [ClayFigure.lifeStep] at hstep
      split at hstep
      · next hexist hpc hdied =>
          cases hstep
          obtain ⟨q, hpending⟩ := not_forall_not.mp hbad
          obtain ⟨hflight, hto, hne⟩ := hpending
          obtain ⟨dst, hdst⟩ := Option.isSome_iff_exists.mp hflight
          have hdest : dst = pidOf p := (h.sender q dst hdst hne).1.symm.trans hto
          exact ⟨q, p, ⟨by rw [hdst, hdest], hto, hne, hexist, Function.update_self .., hpc⟩,
            h.used, _, _, h.ipc⟩
      · cases hstep
  | ipc c =>
      cases c with
      | run p =>
          have hsend : ∃ dst msg q, s.ipc.pc p = .sendCheck dst msg ∧
              s.ipc.pidToTask dst = some q ∧ s.died q = true := by
            by_contra hno
            refine hbad fun dst msg q hpc hdst => ?_
            rw [← Bool.not_eq_true]
            exact fun hdied => hno ⟨dst, msg, q, hpc, hdst, hdied⟩
          obtain ⟨dst, msg, q, hpc, hdst, hdied⟩ := hsend
          have hrun : s.ipc.run p = some (s.ipc.startSend p dst msg) := by
            simp only [Ipc.run, hpc, hdst, Option.isSome_some, if_true]
            rfl
          obtain rfl := Option.some.inj ((lifeStep_run hrun).symm.trans hstep)
          obtain ⟨hpid, hexist⟩ := Ipc.pidToTask_eq_some.mp hdst
          have huser : s.ipc.pc q = .user := by
            by_contra hne
            simp [(h.caller q hne).2] at hdied
          have hqp : q ≠ p := by
            rintro rfl
            simp [huser] at hpc
          have hinv : ∃ contents place,
              IpcInv ((s.ipc.startSend p dst msg).withExist used) contents place := by
            rcases Ipc.run_withExist h.used hrun with hrun' | ⟨heq, -⟩
            · exact h.ipc.run hrun'
            · have hpcs := congrArg (fun u => u.pc p) heq
              simp [Ipc.startSend_pc, Ipc.setPc_pc] at hpcs
          refine ⟨p, q, ⟨?_, ?_, ?_, hexist, hdied, ?_⟩, h.used, hinv⟩
          · rw [Ipc.startSend_pc, if_pos rfl, hpid]
            rfl
          · rw [Ipc.startSend_sendTo, if_pos rfl, hpid]
          · rw [Ipc.startSend_record, if_pos rfl]
            have hsend := (h.ipc.tasks p).send
            have hpc' : (s.ipc.withExist used).pc p = .sendCheck dst msg := hpc
            rw [hpc'] at hsend
            have haccepted : (s.ipc.record p).accepted = (s.ipc.record p).copied := hsend.1.2.2
            simp [haccepted]
          · rw [Ipc.startSend_pc, if_neg hqp, huser]
      | _ => exact absurd trivial hbad

/-! ## Runs -/

/-- In every orderly run the senders are where they should be. After any other step of a run
that was orderly until then a sender can be left in the list of a dead task. -/
theorem lifeSystem_sendersListed [Inhabited β] :
    (∀ s, (lifeSystem β).ReachableWhen IpcLife.Orderly s → s.SendersListed) ∧
      ∀ (s : IpcLife β) c t, (lifeSystem β).ReachableWhen IpcLife.Orderly s →
        lifeStep s c = some t → ¬ s.Orderly c →
          ∃ u, (lifeSystem β).Steps t u ∧ ¬ u.SendersListed := by
  refine ⟨fun s hreach => ?_, fun s c t hreach hstep hbad => ?_⟩
  · obtain ⟨used, contents, place, h⟩ := lifeInv_of_reachable hreach
    exact h.sendersListed
  · obtain ⟨used, contents, place, h⟩ := lifeInv_of_reachable hreach
    obtain ⟨p, q, hdoomed, hused, hinv⟩ := h.doomed hstep hbad
    exact hdoomed.steps hused hinv

/-- Task 0 has called `msg_send` with task 1 as the destination. -/
def clearedIpc : Ipc Unit :=
  ((bootIpc.setPc 0 (.sendClear 1 ⟨0, 7, ()⟩)).setTask 0 (bootIpc.task 0)).setPc 0
    (.sendCheck 1 ⟨0, 7, ()⟩)

/-- Task 0 has set `send_to`. -/
def sentLife : IpcLife Unit := ⟨clearedIpc.startSend 0 1 ⟨0, 7, ()⟩, fun _ => false⟩

theorem sentLife_reachable : (lifeSystem Unit).ReachableWhen IpcLife.Orderly sentLife := by
  have hboot : (lifeSystem Unit).ReachableWhen IpcLife.Orderly ⟨bootIpc, fun _ => false⟩ :=
    .init ⟨bootIpc_init, fun _ => rfl⟩
  have hsend : lifeStep ⟨bootIpc, fun _ => false⟩ (.ipc (.send 0 1 ⟨0, 7, ()⟩)) =
      some ⟨bootIpc.setPc 0 (.sendClear 1 ⟨0, 7, ()⟩), fun _ => false⟩ := rfl
  have hclear := lifeStep_run (p := 0)
    (s := ⟨bootIpc.setPc 0 (.sendClear 1 ⟨0, 7, ()⟩), fun _ => false⟩)
    (show _ = some clearedIpc from rfl)
  have hstart := lifeStep_run (p := 0) (s := ⟨clearedIpc, fun _ => false⟩)
    (show _ = some (clearedIpc.startSend 0 1 ⟨0, 7, ()⟩) from rfl)
  have hcalled := hboot.step (a := LifeCall.ipc (.send 0 1 ⟨0, 7, ()⟩)) trivial hsend
  have hcleared := hcalled.step (a := LifeCall.ipc (.run 0)) (fun _ _ _ _ _ => rfl) hclear
  exact hcleared.step (a := LifeCall.ipc (.run 0)) (fun _ _ _ _ _ => rfl) hstart

theorem sentLife_pending : ¬ sentLife.Orderly (.taskExit 1) :=
  fun hall => hall 0 ⟨rfl, rfl, by decide⟩

theorem sentLife_exit : lifeStep sentLife (.taskExit 1) =
    some { sentLife with died := Function.update sentLife.died 1 true } := rfl

/-- All is in order until task 1 exits. -/
theorem sentLife_left :
    sentLife.SendersListed ∧ ∃ t u, lifeStep sentLife (.taskExit 1) = some t ∧
      (lifeSystem Unit).Steps t u ∧ ¬ u.SendersListed := by
  refine ⟨lifeSystem_sendersListed.1 _ sentLife_reachable, ?_⟩
  obtain ⟨u, hsteps, hbad⟩ := lifeSystem_sendersListed.2 _ _ _ sentLife_reachable sentLife_exit
    sentLife_pending
  exact ⟨_, u, sentLife_exit, hsteps, hbad⟩

/-- Some run leaves a sender in the list of a dead task. -/
theorem lifeSystem_sendersLeft : ¬ ∀ s, (lifeSystem Unit).Reachable s → s.SendersListed := by
  intro hall
  have hreach : (lifeSystem Unit).Reachable sentLife :=
    sentLife_reachable.mono fun _ _ _ => trivial
  obtain ⟨used, contents, place, h⟩ := lifeInv_of_reachable sentLife_reachable
  obtain ⟨p, q, hdoomed, hused, hinv⟩ := h.doomed sentLife_exit sentLife_pending
  obtain ⟨u, hsteps, hbad⟩ := hdoomed.steps hused hinv
  have hexit := hreach.step (a := LifeCall.taskExit 1) trivial sentLife_exit
  exact hbad (hall u (hsteps.reachable hexit))

end ClayFigure
