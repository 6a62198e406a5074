/-
# Every step of `msg_send`, `msg_recv` and the wake-up check keeps the invariant

Most steps concern the task that makes them only. The others move a message from one
place to the next: the sender appends itself, the receiver takes the sender out, copies,
and counts down, and the sender leaves.
-/

import Mathlib.Data.Fintype.Card
import ClayFigure.Syscall.IpcInv

namespace ClayFigure

open ClayFigure.Math

variable {β : Type}

/-! ## The sender of a message that moves -/

theorem SendOk.hold {exist : Slot → Bool} {pc : Pc β} {task : IpcTask β} {record : IpcRecord β}
    {r : Slot} (h : SendOk exist pc task record (.queued r)) :
    SendOk exist pc task record (.held r) := by
  cases pc with
  | sendCount | sendBlock | sending => exact h
  | sendFill | sendAppend => simp [SendOk] at h
  | _ => simp [SendOk, Settled] at h

/-- The receiver copies the last message that was accepted. -/
theorem SendOk.copy {exist : Slot → Bool} {pc : Pc β} {task : IpcTask β} {record : IpcRecord β}
    {r : Slot} (h : SendOk exist pc task record (.held r)) :
    record.accepted = record.copied ++ [(pidOf r, task.msg)] ∧
      SendOk exist pc task { record with copied := record.copied ++ [(pidOf r, task.msg)] }
        (.copied r) := by
  cases pc with
  | sendCount | sendBlock | sending =>
      obtain ⟨⟨hdst, hmsg, hflag, haccepted⟩, hlen⟩ := h
      rw [← hdst, hmsg]
      exact ⟨haccepted, ⟨hdst, hflag, haccepted⟩, hlen⟩
  | sendFill | sendAppend => simp [SendOk] at h
  | _ => simp [SendOk, Settled] at h

theorem SendOk.inform {exist : Slot → Bool} {pc : Pc β} {task : IpcTask β} {record : IpcRecord β}
    {r : Slot} (h : SendOk exist pc task record (.copied r)) (sendTo : Int) :
    SendOk exist pc { task with sendTo := sendTo } record (.copied r) := by
  cases pc with
  | sendCount | sendBlock | sending => exact h
  | sendFill | sendAppend => simp [SendOk] at h
  | _ => simp [SendOk, Settled] at h

/-- The receiver may count down before the sender counts up. -/
theorem SendOk.count {exist : Slot → Bool} {pc : Pc β} {task : IpcTask β} {record : IpcRecord β}
    {r : Slot} (h : SendOk exist pc task record (.copied r)) :
    SendOk exist pc { task with sendFlag := task.sendFlag - 1 } record .gone := by
  cases pc with
  | sendCount | sendBlock | sending =>
      obtain ⟨⟨-, hflag, haccepted⟩, hlen⟩ := h
      exact ⟨⟨by simp only [hflag], haccepted⟩, hlen⟩
  | sendFill | sendAppend => simp [SendOk] at h
  | _ => simp [SendOk, Settled] at h

namespace IpcInv

variable {s t : Ipc β} {contents : Slot → List Slot} {place : Slot → Place} {p q : Slot}

/-! ## Moving a message -/

/-- A task inside a call exists. -/
theorem exist_of_ne_user (h : IpcInv s contents place) (hpc : s.pc p ≠ .user) :
    s.exist p = true := (h.tasks p).alive.resolve_right hpc

/-- Task `p` moves the message of `q` on, which is its own affair until now. -/
theorem pass (h : IpcInv s contents place) (hne : q ≠ p)
    (hplace : place q = .queued p ∨ place q = .held p ∨ place q = .copied p)
    {k : Heap Slot Slot} {xs : List Slot} {pc : Pc β} {task : IpcTask β}
    {record record' : IpcRecord β} {b : Place}
    (hlists : k.Holds (s.exist · = true) (Function.update contents p xs))
    (hxs : ∀ x, x ∈ xs ↔ x ≠ q ∧ x ∈ contents p)
    (hpc : ∀ x c, pc.holds = some (x, c) ↔ x = q ∧ b = if c then .copied p else .held p)
    (hold : ∀ x c, (s.pc p).holds = some (x, c) → x = q)
    (hb : b = .held p ∨ b = .copied p ∨ b = .gone)
    (hcopies : ∀ x, (s.record x).copied ⊆
      (Function.update (Function.update s.record q record) p record' x).copied)
    (hq : TaskOk s.exist s.copies q (s.pc q) task record (s.check q) (contents q) b)
    (hp : TaskOk s.exist
      (fun x => (Function.update (Function.update s.record q record) p record' x).copied)
      p pc (s.task p) record' (s.check p) xs (place p)) :
    IpcInv
      { s with
        links := k
        pc := Function.update s.pc p pc
        task := Function.update s.task q task
        record := Function.update (Function.update s.record q record) p record' }
      (Function.update contents p xs) (Function.update place q b) := by
  refine ⟨hlists, fun x => ?_, fun r x hr => ?_, fun r x => ?_, fun r x => ?_⟩
  · by_cases hxp : x = p
    · subst hxp
      simp only [Function.update_self, Function.update_of_ne hne.symm]
      exact hp
    · simp only [Function.update_of_ne hxp]
      by_cases hxq : x = q
      · subst hxq
        simp only [Function.update_self]
        exact hq.mono hcopies (List.Subset.refl _)
      · simp only [Function.update_of_ne hxq]
        exact (h.tasks x).mono hcopies (List.Subset.refl _)
  · have := h.queued r x hr
    grind
  · have := h.held r x
    have := hpc x false
    have := hold x false
    grind
  · have := h.taken r x
    have := hpc x true
    have := hold x true
    grind

/-- The receiver takes a sender out of its list. -/
theorem take (h : IpcInv s contents place) {src : Int} {pre post : List Slot} {k : Heap Slot Slot}
    (hidle : s.check p = .idle) (hold : (s.pc p).holds = none)
    (hcontents : contents p = pre ++ q :: post)
    (hlists : k.Holds (s.exist · = true) (Function.update contents p (pre ++ post)))
    (hexist : s.exist p = true) (hsend : SendOk s.exist (.recvCopy src q) (s.task p) (s.record p)
      (place p))
    (hflag : (s.task p).recvFlag = 0) (hfits : Fits src q) :
    IpcInv ((s.setLinks k).setPc p (.recvCopy src q)) (Function.update contents p (pre ++ post))
      (Function.update place q (.held p)) := by
  have hmem : q ∈ contents p := by simp [hcontents]
  have hplace : place q = .queued p := (h.queued p q hexist).mp hmem
  have hne : q ≠ p := by
    rintro rfl
    have hnone : place q = .none := hsend.1.1
    simp [hplace] at hnone
  have hnodup := h.lists.nodup p hexist
  rw [hcontents, List.nodup_middle, List.nodup_cons] at hnodup
  have hq := h.tasks q
  rw [hplace] at hq
  have hp := h.tasks p
  have hstate : (s.setLinks k).setPc p (.recvCopy src q) =
      { s with
        links := k
        pc := Function.update s.pc p (.recvCopy src q)
        task := Function.update s.task q (s.task q)
        record := Function.update (Function.update s.record q (s.record q)) p (s.record p) } := by
    simp [Ipc.setLinks, Ipc.setPc]
  rw [hstate]
  refine h.pass hne (Or.inl hplace) hlists ?_ ?_ ?_ (Or.inl rfl) ?_
    { hq with send := hq.send.hold } ⟨Or.inl hexist, hsend, hp.stamped, ⟨hflag, hfits⟩, ?_, ?_⟩
  · intro x
    rw [hcontents]
    grind
  · intro x c
    cases c <;> simp [Pc.holds, eq_comm]
  · intro x c hx
    simp [hold] at hx
  · intro x
    simp
  · rw [hidle]
    trivial
  · simp only [Function.update_eq_self]
    exact hp.received

/-- The receiver copies the message. -/
theorem copy (h : IpcInv s contents place) {src : Int} (hpc : s.pc p = .recvCopy src q) :
    IpcInv ((s.setRecord q { s.record q with
        copied := (s.record q).copied ++ [(pidOf p, (s.task q).msg)] }).setPc p
        (.recvRelease src q (s.task q).msg)) contents
      (Function.update place q (.copied p)) := by
  have hplace : place q = .held p := (h.held p q).mp (by rw [hpc]; rfl)
  have hp := h.tasks p
  have hidle := hp.check.eq_idle (by simp [Ipc.Blocked, hpc])
  rw [hpc, hidle] at hp
  have hne : q ≠ p := by
    rintro rfl
    have hnone : place q = .none := hp.send.1.1
    simp [hplace] at hnone
  have hq := h.tasks q
  rw [hplace] at hq
  obtain ⟨haccepted, hsend⟩ := hq.send.copy
  have hstamp : (s.task q).msg.src = pidOf q :=
    hq.stamped (pidOf p, (s.task q).msg) (by simp [haccepted])
  have hstate : (s.setRecord q { s.record q with
        copied := (s.record q).copied ++ [(pidOf p, (s.task q).msg)] }).setPc p
        (.recvRelease src q (s.task q).msg) =
      { s with
        links := s.links
        pc := Function.update s.pc p (.recvRelease src q (s.task q).msg)
        task := Function.update s.task q (s.task q)
        record := Function.update (Function.update s.record q { s.record q with
          copied := (s.record q).copied ++ [(pidOf p, (s.task q).msg)] }) p (s.record p) } := by
    simp [Ipc.setRecord, Ipc.setPc, Function.update_comm hne]
  have hgone : q ∉ contents p := by
    intro hmem
    have hqueued := (h.queued p q (h.exist_of_ne_user (by simp [hpc]))).mp hmem
    simp [hplace] at hqueued
  have hcopied (x : Slot) : s.copies x ⊆ (Function.update (Function.update s.record q
      { s.record q with copied := (s.record q).copied ++ [(pidOf p, (s.task q).msg)] }) p
      (s.record p) x).copied := by
    by_cases hxp : x = p
    · subst hxp
      simp [Ipc.copies]
    · by_cases hxq : x = q
      · subst hxq
        simp [Ipc.copies, hxp]
      · simp [Ipc.copies, hxp, hxq]
  rw [hstate, ← Function.update_eq_self p contents]
  refine h.pass hne (Or.inr (Or.inl hplace)) ?_ ?_ ?_ ?_ (Or.inr (Or.inl rfl)) hcopied
    ⟨hq.alive, hsend, hq.stamped, hq.recv, hq.check, hq.received⟩
    ⟨Or.inl (h.exist_of_ne_user (by simp [hpc])), hp.send, hp.stamped, ⟨hp.recv.1, hp.recv.2, ?_⟩,
      ?_, hp.received.mono hcopied⟩
  · rw [Function.update_eq_self]
    exact h.lists
  · exact fun x => ⟨fun hx => ⟨fun heq => hgone (heq ▸ hx), hx⟩, And.right⟩
  · intro x c
    cases c <;> simp [Pc.holds, eq_comm]
  · intro x c hx
    simp only [hpc, Pc.holds, Option.some.injEq, Prod.mk.injEq] at hx
    exact hx.1.symm
  · exact ⟨hstamp, by simp [hne]⟩
  · rw [hidle]
    trivial

/-- The receiver counts down and returns. -/
theorem count (h : IpcInv s contents place) {src : Int} {msg : Message β}
    (hpc : s.pc p = .recvCount src q msg) :
    IpcInv ((s.setTask q { s.task q with
        sendFlag := (s.task q).sendFlag - 1 }).recvReturns p src msg) contents
      (Function.update place q .gone) := by
  have hplace : place q = .copied p := (h.taken p q).mp (by rw [hpc]; rfl)
  have hp := h.tasks p
  have hidle := hp.check.eq_idle (by simp [Ipc.Blocked, hpc])
  rw [hpc, hidle] at hp
  have hne : q ≠ p := by
    rintro rfl
    have hnone : place q = .none := hp.send.1.1
    simp [hplace] at hnone
  have hq := h.tasks q
  rw [hplace] at hq
  have hgone : q ∉ contents p := by
    intro hmem
    have hqueued := (h.queued p q (h.exist_of_ne_user (by simp [hpc]))).mp hmem
    simp [hplace] at hqueued
  have hstate : (s.setTask q { s.task q with
        sendFlag := (s.task q).sendFlag - 1 }).recvReturns p src msg =
      { s with
        links := s.links
        pc := Function.update s.pc p .user
        task := Function.update s.task q { s.task q with sendFlag := (s.task q).sendFlag - 1 }
        record := Function.update (Function.update s.record q (s.record q)) p { s.record p with
          received := (s.record p).received ++ [(src, msg)] } } := by
    simp [Ipc.recvReturns, Ipc.setTask, Ipc.setRecord, Ipc.setPc]
  have hcopied (x : Slot) : s.copies x ⊆ (Function.update (Function.update s.record q
      (s.record q)) p { s.record p with
        received := (s.record p).received ++ [(src, msg)] } x).copied := by
    by_cases hxp : x = p
    · subst hxp
      simp [Ipc.copies]
    · simp [Ipc.copies, hxp]
  rw [hstate, ← Function.update_eq_self p contents]
  refine h.pass hne (Or.inr (Or.inr hplace)) ?_ ?_ ?_ ?_ (Or.inr (Or.inr rfl)) hcopied
    ⟨hq.alive, hq.send.count, hq.stamped, hq.recv.mono (fun _ => List.Subset.refl _) rfl rfl id
      (List.Subset.refl _), hq.check.mono id (List.Subset.refl _), hq.received⟩
    ⟨Or.inr rfl, hp.send, hp.stamped, hp.recv.1, ?_, ?_⟩
  · rw [Function.update_eq_self]
    exact h.lists
  · exact fun x => ⟨fun hx => ⟨fun heq => hgone (heq ▸ hx), hx⟩, And.right⟩
  · intro x c
    cases c <;> simp [Pc.holds]
  · intro x c hx
    simp only [hpc, Pc.holds, Option.some.injEq, Prod.mk.injEq] at hx
    exact hx.1.symm
  · rw [hidle]
    trivial
  · intro x hx
    rcases List.mem_append.mp hx with hx | hx
    · exact hp.received.mono hcopied x hx
    · rw [List.mem_singleton.mp hx]
      exact Or.inr ⟨q, hp.recv.2.1, hp.recv.2.2.1, hcopied q hp.recv.2.2.2⟩

/-- The sender puts itself into the list of its destination. -/
theorem append (h : IpcInv s contents place) {r : Slot} {dst : Int} {msg : Message β}
    (hpc : s.pc p = .sendAppend dst msg) (hdst : dst = pidOf r) (hexist : s.exist r = true)
    {k : Heap Slot Slot}
    (hlists : k.Holds (s.exist · = true) (Function.update contents r (contents r ++ [p]))) :
    IpcInv ((s.setLinks k).setPc p (.sendCount dst msg))
      (Function.update contents r (contents r ++ [p])) (Function.update place p (.queued r)) := by
  have hp := h.tasks p
  have hidle := hp.check.eq_idle (by simp [Ipc.Blocked, hpc])
  rw [hpc, hidle] at hp
  obtain ⟨-, hplace, hflag, -, haccepted, hlen, hmsg⟩ := hp.send
  have hsub (x : Slot) : contents x ⊆ Function.update contents r (contents r ++ [p]) x := by
    by_cases hx : x = r
    · subst hx
      simp
    · simp [hx]
  refine ⟨hlists, fun x => ?_, fun r' x hr' => ?_, fun r' x => ?_, fun r' x => ?_⟩
  · by_cases hx : x = p
    · subst hx
      simp only [Ipc.setPc, Ipc.setLinks, Function.update_self, hidle]
      have hsend : SendOk s.exist (.sendCount dst msg) (s.task x) (s.record x) (.queued r) :=
        ⟨⟨hdst, hmsg, hflag, haccepted⟩, hlen⟩
      have hrecv : (s.task x).recvFlag = 0 := hp.recv
      exact ⟨Or.inl (h.exist_of_ne_user (by simp [hpc])), hsend, hp.stamped, hrecv, trivial,
        hp.received⟩
    · simp only [Ipc.setPc, Ipc.setLinks, Function.update_of_ne hx]
      exact (h.tasks x).mono (fun _ => List.Subset.refl _) (hsub x)
  · have := h.queued r' x hr'
    grind
  · have := h.held r' x
    simp only [Ipc.setPc, Ipc.setLinks]
    grind [Pc.holds]
  · have := h.taken r' x
    simp only [Ipc.setPc, Ipc.setLinks]
    grind [Pc.holds]

/-- An interrupt comes in. -/
theorem informIntr (h : IpcInv s contents place) (dst : Int) :
    IpcInv (s.informIntr dst) contents place := by
  unfold Ipc.informIntr
  split
  · exact h
  · next receiver _ =>
      have hr := h.tasks receiver
      rw [Ipc.setTask_eq_put]
      have hintr : (s.task receiver).hasIntrMsg ≠ 0 → (1 : BitVec 32) ≠ 0 := fun _ => by decide
      exact h.put rfl rfl ⟨hr.alive, hr.send, hr.stamped,
        hr.recv.mono (fun _ => List.Subset.refl _) rfl rfl hintr (List.Subset.refl _),
        hr.check.mono hintr (List.Subset.refl _), hr.received⟩

/-- A sender whose message was counted down wakes up. -/
theorem leave (h : IpcInv s contents place) {dst : Int} {msg : Message β}
    (hpc : s.pc p = .sending dst msg) (hflag : ¬ 0 < (s.task p).sendFlag.toInt) :
    IpcInv ((s.setCheck p .idle).setPc p .sendReturn) contents
      (Function.update place p .none) := by
  have hp := h.tasks p
  rw [hpc] at hp
  have hdown (hone : (s.task p).sendFlag = 1) : False := by
    rw [hone] at hflag
    exact hflag (by decide)
  have hplace : place p = .gone := by
    have hposted := hp.send.1
    cases hplace : place p with
    | none => simp [hplace, Posted] at hposted
    | queued r =>
        rw [hplace] at hposted
        exact (hdown hposted.2.2.1).elim
    | held r =>
        rw [hplace] at hposted
        exact (hdown hposted.2.2.1).elim
    | copied r =>
        rw [hplace] at hposted
        exact (hdown hposted.2.1).elim
    | gone => rfl
  have hsend := hp.send
  rw [hplace] at hsend
  obtain ⟨⟨hzero, haccepted⟩, hlen⟩ := hsend
  refine ⟨h.lists, fun x => ?_, fun r x hr => ?_, fun r x => ?_, fun r x => ?_⟩
  · by_cases hx : x = p
    · subst hx
      simp only [Ipc.setPc, Ipc.setCheck, Function.update_self]
      have hsend : SendOk s.exist (.sendReturn (β := β)) (s.task x) (s.record x) .none :=
        ⟨⟨rfl, hzero, haccepted⟩, hlen⟩
      have hrecv : (s.task x).recvFlag = 0 := hp.recv
      exact ⟨Or.inl (h.exist_of_ne_user (by simp [hpc])), hsend, hp.stamped, hrecv, trivial,
        hp.received⟩
    · simp only [Ipc.setPc, Ipc.setCheck, Function.update_of_ne hx]
      exact h.tasks x
  · have := h.queued r x hr
    grind
  · have := h.held r x
    simp only [Ipc.setPc, Ipc.setCheck]
    grind [Pc.holds]
  · have := h.taken r x
    simp only [Ipc.setPc, Ipc.setCheck]
    grind [Pc.holds]

/-! ## All steps -/

/-- A task in a call goes on, and changes its own fields on the way. -/
theorem advance (h : IpcInv s contents place) {pc pc' : Pc β} (hpc : s.pc p = pc')
    (hne : pc' ≠ .user) (hidle : s.check p = .idle) {task : IpcTask β}
    (hholds : pc.holds = pc'.holds)
    (hsend : SendOk s.exist pc task (s.record p) (place p))
    (hrecv : RecvOk s.exist s.copies p pc task (contents p)) :
    IpcInv ((s.setTask p task).setPc p pc) contents place := by
  have hstate : (s.setTask p task).setPc p pc = s.put p pc task (s.record p) (s.check p) := by
    simp [Ipc.setTask_eq_put, Ipc.setPc_eq_put]
  rw [hstate, hidle]
  have hp := h.tasks p
  exact h.put rfl (hholds.trans (by rw [hpc]))
    ⟨Or.inl (h.exist_of_ne_user (hpc ▸ hne)), hsend, hp.stamped, hrecv, trivial, hp.received⟩

/-- A task in a call goes on. -/
theorem advancePc (h : IpcInv s contents place) {pc pc' : Pc β} (hpc : s.pc p = pc')
    (hne : pc' ≠ .user) (hidle : s.check p = .idle) (hholds : pc.holds = pc'.holds)
    (hsend : SendOk s.exist pc (s.task p) (s.record p) (place p))
    (hrecv : RecvOk s.exist s.copies p pc (s.task p) (contents p)) :
    IpcInv (s.setPc p pc) contents place := by
  have hstate : s.setPc p pc = (s.setTask p (s.task p)).setPc p pc := by
    simp [Ipc.setTask, Ipc.setPc]
  rw [hstate]
  exact h.advance hpc hne hidle hholds hsend hrecv

/-- A call returns and records what it has done. -/
theorem returns (h : IpcInv s contents place) (hidle : s.check p = .idle) {task : IpcTask β}
    {record : IpcRecord β} (hholds : (s.pc p).holds = none)
    (hcopied : record.copied = (s.record p).copied)
    (haccepted : record.accepted = (s.record p).accepted)
    (hsend : SendOk s.exist (.user : Pc β) task record (place p)) (hrecv : task.recvFlag = 0)
    (hreceived : ReceivedOk s.copies p record.received) :
    IpcInv (((s.setTask p task).setRecord p record).setPc p .user) contents place := by
  have hstate : ((s.setTask p task).setRecord p record).setPc p .user =
      s.put p .user task record (s.check p) := by
    simp [Ipc.setTask_eq_put, Ipc.setRecord_eq_put, Ipc.setPc_eq_put]
  rw [hstate, hidle]
  have hp := h.tasks p
  exact h.put hcopied hholds.symm
    ⟨Or.inr rfl, hsend, haccepted ▸ hp.stamped, hrecv, trivial, hreceived⟩

/-! ### `msg_send` -/

theorem run_sendCheck (h : IpcInv s contents place) {dst : Int} {msg : Message β}
    (hpc : s.pc p = .sendCheck dst msg) (hidle : s.check p = .idle) (hrun : s.run p = some t) :
    IpcInv t contents place := by
  have hp := h.tasks p
  have hexist := h.exist_of_ne_user (p := p) (by simp [hpc])
  rw [hpc] at hp
  obtain ⟨⟨hplace, hflag, haccepted⟩, hlen⟩ := hp.send
  simp only [Ipc.run, hpc] at hrun
  split at hrun
  · next hdst =>
      cases hrun
      obtain ⟨r, hr⟩ := Option.isSome_iff_exists.mp hdst
      have hstate : ((s.setTask p { s.task p with sendTo := dst }).setRecord p
          { s.record p with accepted := (s.record p).accepted ++ [(dst, Ipc.stamp p msg)] }).setPc
          p (.sendFill dst (Ipc.stamp p msg)) =
          s.put p (.sendFill dst (Ipc.stamp p msg)) { s.task p with sendTo := dst }
            { s.record p with accepted := (s.record p).accepted ++ [(dst, Ipc.stamp p msg)] }
            (s.check p) := by
        simp [Ipc.setTask_eq_put, Ipc.setRecord_eq_put, Ipc.setPc_eq_put]
      rw [hstate, hidle]
      refine h.put rfl (by rw [hpc]; rfl) ⟨Or.inl hexist, ?_, ?_, hp.recv, trivial, hp.received⟩
      · refine ⟨⟨r, Ipc.pidToTask_eq_some.mp hr⟩, hplace, hflag, rfl, ?_, ?_⟩
        · simp only [haccepted]
        · simp [hlen]
      · intro x hx
        rcases List.mem_append.mp hx with hx | hx
        · exact hp.stamped x hx
        · rw [List.mem_singleton.mp hx]
          rfl
  · cases hrun
    exact h.advancePc hpc nofun hidle rfl hp.send hp.recv

theorem run_sendAppend (h : IpcInv s contents place) {dst : Int} {msg : Message β}
    (hpc : s.pc p = .sendAppend dst msg) (hrun : s.run p = some t) :
    ∃ contents place, IpcInv t contents place := by
  have hp := h.tasks p
  rw [hpc] at hp
  obtain ⟨⟨r, hdst, hexist⟩, hplace, -, hto, -⟩ := hp.send
  have hreceiver : s.pidToTask (s.task p).sendTo = some r :=
    Ipc.pidToTask_eq_some.mpr ⟨hto.trans hdst, hexist⟩
  have hloose : Heap.Loose (s.exist · = true) contents p := by
    intro r' hr' hmem
    have hqueued := (h.queued r' p hr').mp hmem
    simp [hplace] at hqueued
  obtain ⟨k, hk, hlists⟩ := h.lists.listAppend hexist hloose
  simp only [Ipc.run, hpc, hreceiver, hk, Option.bind_eq_bind, Option.bind_some] at hrun
  cases hrun
  exact ⟨_, _, h.append hpc hdst hexist hlists⟩

/-- The sender counts its message. -/
theorem Posted.countUp {dst : Int} {msg : Message β} {task : IpcTask β} {record : IpcRecord β}
    {b : Place} (h : Posted 0 dst msg task record b) :
    Posted 1 dst msg { task with sendFlag := task.sendFlag + 1 } record b := by
  cases b with
  | none => exact h
  | queued r => exact ⟨h.1, h.2.1, by simp [h.2.2.1], h.2.2.2⟩
  | held r => exact ⟨h.1, h.2.1, by simp [h.2.2.1], h.2.2.2⟩
  | copied r => exact ⟨h.1, by simp [h.2.1], h.2.2⟩
  | gone => exact ⟨by simp [h.1], h.2⟩

/-! ### `msg_recv` -/

theorem run_recvCheck (h : IpcInv s contents place) {src : Int} {msg : Message β}
    (hpc : s.pc p = .recvCheck src msg) (hidle : s.check p = .idle) (hrun : s.run p = some t) :
    IpcInv t contents place := by
  have hp := h.tasks p
  rw [hpc] at hp
  simp only [Ipc.run, hpc] at hrun
  split at hrun
  · cases hrun
    exact h.advancePc hpc nofun hidle rfl hp.send hp.recv
  · next hsrc =>
      cases hrun
      have hnamed : Named s.exist src := by
        by_cases hany : src = recvFromAny
        · exact Or.inl hany
        by_cases hint : src = recvFromInt
        · exact Or.inr (Or.inl hint)
        obtain ⟨q, hq⟩ : ∃ q, s.pidToTask src = some q := by
          rw [← Option.ne_none_iff_exists', ne_eq, ← Option.isNone_iff_eq_none]
          exact fun hnone => hsrc ⟨hany, hint, hnone⟩
        exact Or.inr (Or.inr ⟨q, Ipc.pidToTask_eq_some.mp hq⟩)
      exact h.advance hpc nofun hidle rfl hp.send ⟨hp.recv, rfl, hnamed⟩

theorem run_recvSelect (h : IpcInv s contents place) {src : Int} {msg : Message β}
    (hpc : s.pc p = .recvSelect src msg) (hidle : s.check p = .idle) (hrun : s.run p = some t) :
    IpcInv t contents place := by
  have hp := h.tasks p
  rw [hpc] at hp
  obtain ⟨hflag, hnamed, hready⟩ := hp.recv
  simp only [Ipc.run, hpc] at hrun
  split at hrun
  · next hsrc =>
      split at hrun
      · cases hrun
        exact h.advancePc hpc nofun hidle rfl hp.send ⟨hflag, hsrc⟩
      · next hintr =>
          cases hrun
          have hany : src = recvFromAny := hsrc.resolve_right fun heq => hintr (hready.intr heq)
          exact h.advancePc hpc nofun hidle rfl hp.send
            ⟨hflag, hany, hready.any.resolve_left hintr⟩
  · next hsrc =>
      cases hrun
      rw [not_or] at hsrc
      obtain ⟨q, hq, hexist⟩ := (hnamed.resolve_left hsrc.1).resolve_left hsrc.2
      exact h.advancePc hpc nofun hidle rfl hp.send
        ⟨hflag, q, hq, hexist, hready.sender q hq⟩

theorem run_recvIntrTake (h : IpcInv s contents place) {src : Int} {msg : Message β}
    (hpc : s.pc p = .recvIntrTake src msg) (hidle : s.check p = .idle) (hrun : s.run p = some t) :
    IpcInv t contents place := by
  have hp := h.tasks p
  rw [hpc] at hp
  simp only [Ipc.run, hpc] at hrun
  cases hrun
  refine h.returns hidle (by rw [hpc]; rfl) rfl rfl hp.send hp.recv.1 fun x hx => ?_
  rcases List.mem_append.mp hx with hx | hx
  · exact hp.received x hx
  · rw [List.mem_singleton.mp hx]
    exact Or.inl ⟨rfl, hp.recv.2⟩

theorem run_recvPop (h : IpcInv s contents place) {src : Int} (hpc : s.pc p = .recvPop src)
    (hidle : s.check p = .idle) (hrun : s.run p = some t) :
    ∃ contents place, IpcInv t contents place := by
  have hexist := h.exist_of_ne_user (p := p) (by simp [hpc])
  have hp := h.tasks p
  rw [hpc] at hp
  obtain ⟨hflag, hany, hcontents⟩ := hp.recv
  obtain ⟨q, xs, hcons⟩ := List.exists_cons_of_ne_nil hcontents
  obtain ⟨k, hk, hlists⟩ := h.lists.listPop hexist hcons
  have hsplit : contents p = [] ++ q :: xs := hcons
  simp only [Ipc.run, hpc, hk] at hrun
  cases hrun
  exact ⟨_, _, h.take hidle (by rw [hpc]; rfl) hsplit hlists hexist hp.send hflag (Or.inl hany)⟩

theorem run_recvRemove (h : IpcInv s contents place) {src : Int} (hpc : s.pc p = .recvRemove src)
    (hidle : s.check p = .idle) (hrun : s.run p = some t) :
    ∃ contents place, IpcInv t contents place := by
  have hexist := h.exist_of_ne_user (p := p) (by simp [hpc])
  have hp := h.tasks p
  rw [hpc] at hp
  obtain ⟨hflag, q, hq, hqexist, hmem⟩ := hp.recv
  obtain ⟨pre, post, hsplit⟩ := List.append_of_mem hmem
  obtain ⟨k, hk, hlists⟩ := h.lists.listRemove hexist pre post hsplit
  have hsender : s.pidToTask src = some q := Ipc.pidToTask_eq_some.mpr ⟨hq, hqexist⟩
  simp only [Ipc.run, hpc, hsender, hk, Option.bind_eq_bind, Option.bind_some] at hrun
  cases hrun
  exact ⟨_, _, h.take hidle (by rw [hpc]; rfl) hsplit hlists hexist hp.send hflag (Or.inr hq)⟩

theorem run_recvInform (h : IpcInv s contents place) {src : Int} {msg : Message β}
    (hpc : s.pc p = .recvInform src q msg) (hidle : s.check p = .idle)
    (hrun : s.run p = some t) : IpcInv t contents place := by
  have hplace : place q = .copied p := (h.taken p q).mp (by rw [hpc]; rfl)
  have hq := h.tasks q
  rw [hplace] at hq
  simp only [Ipc.run, hpc] at hrun
  cases hrun
  have hsender : IpcInv (s.setTask q { s.task q with sendTo := pidNoTask }) contents place := by
    rw [Ipc.setTask_eq_put]
    exact h.put rfl rfl ⟨hq.alive, hplace ▸ hq.send.inform pidNoTask, hq.stamped,
      hq.recv.mono (fun _ => List.Subset.refl _) rfl rfl id (List.Subset.refl _),
      hq.check.mono id (List.Subset.refl _), hq.received⟩
  have hpc' : (s.setTask q { s.task q with sendTo := pidNoTask }).pc p = .recvInform src q msg :=
    hpc
  have hp := hsender.tasks p
  rw [hpc'] at hp
  exact hsender.advancePc hpc' nofun hidle rfl hp.send hp.recv

/-! ### A step of a task, of the check, of a run -/

/-- Every step of a task keeps the invariant. -/
theorem run (h : IpcInv s contents place) (hrun : s.run p = some t) :
    ∃ contents place, IpcInv t contents place := by
  have hp := h.tasks p
  have hidle : s.check p = .idle := by
    apply hp.check.eq_idle
    unfold Ipc.run at hrun
    unfold Ipc.Blocked
    split at hrun <;> simp_all
  cases hpc : s.pc p with
  | user | waiting | sending | receiving => simp [Ipc.run, hpc] at hrun
  | sendClear dst msg =>
      simp only [Ipc.run, hpc] at hrun
      cases hrun
      rw [hpc] at hp
      exact ⟨_, _, h.advance hpc (by simp) hidle rfl hp.send hp.recv⟩
  | sendCheck dst msg => exact ⟨_, _, h.run_sendCheck hpc hidle hrun⟩
  | sendFill dst msg =>
      simp only [Ipc.run, hpc] at hrun
      cases hrun
      rw [hpc] at hp
      obtain ⟨hdst, hplace, hflag, hto, haccepted, hlen⟩ := hp.send
      exact ⟨_, _, h.advance hpc (by simp) hidle rfl
        ⟨hdst, hplace, hflag, hto, haccepted, hlen, rfl⟩ hp.recv⟩
  | sendAppend dst msg => exact h.run_sendAppend hpc hrun
  | sendCount dst msg =>
      simp only [Ipc.run, hpc] at hrun
      cases hrun
      rw [hpc] at hp
      exact ⟨_, _, h.advance hpc (by simp) hidle rfl ⟨Posted.countUp hp.send.1, hp.send.2⟩ hp.recv⟩
  | sendBlock dst msg =>
      simp only [Ipc.run, hpc] at hrun
      cases hrun
      rw [hpc] at hp
      exact ⟨_, _, h.advancePc hpc (by simp) hidle rfl hp.send hp.recv⟩
  | sendReturn =>
      simp only [Ipc.run, hpc] at hrun
      cases hrun
      rw [hpc] at hp
      have hstate : s = s.setTask p (s.task p) := by simp [Ipc.setTask]
      rw [Ipc.sendReturns, hstate]
      exact ⟨_, _, h.returns hidle (by rw [hpc]; rfl) rfl rfl hp.send hp.recv hp.received⟩
  | recvClear src msg =>
      simp only [Ipc.run, hpc] at hrun
      cases hrun
      rw [hpc] at hp
      exact ⟨_, _, h.advance hpc (by simp) hidle rfl hp.send hp.recv⟩
  | recvCheck src msg => exact ⟨_, _, h.run_recvCheck hpc hidle hrun⟩
  | recvSet src msg =>
      simp only [Ipc.run, hpc] at hrun
      cases hrun
      rw [hpc] at hp
      exact ⟨_, _, h.advance hpc (by simp) hidle rfl hp.send ⟨rfl, hp.recv.2⟩⟩
  | recvBlock src msg =>
      simp only [Ipc.run, hpc] at hrun
      cases hrun
      rw [hpc] at hp
      exact ⟨_, _, h.advancePc hpc (by simp) hidle rfl hp.send hp.recv⟩
  | recvSelect src msg => exact ⟨_, _, h.run_recvSelect hpc hidle hrun⟩
  | recvIntrClear src msg =>
      simp only [Ipc.run, hpc] at hrun
      cases hrun
      rw [hpc] at hp
      exact ⟨_, _, h.advance hpc (by simp) hidle rfl hp.send hp.recv⟩
  | recvIntrTake src msg => exact ⟨_, _, h.run_recvIntrTake hpc hidle hrun⟩
  | recvPop src => exact h.run_recvPop hpc hidle hrun
  | recvRemove src => exact h.run_recvRemove hpc hidle hrun
  | recvCopy src q =>
      simp only [Ipc.run, hpc] at hrun
      cases hrun
      exact ⟨_, _, h.copy hpc⟩
  | recvRelease src q msg =>
      simp only [Ipc.run, hpc] at hrun
      cases hrun
      rw [hpc] at hp
      exact ⟨_, _, h.advance hpc (by simp) hidle rfl hp.send hp.recv⟩
  | recvInform src q msg => exact ⟨_, _, h.run_recvInform hpc hidle hrun⟩
  | recvCount src q msg =>
      simp only [Ipc.run, hpc] at hrun
      cases hrun
      exact ⟨_, _, h.count hpc⟩

/-! ### The wake-up check -/

/-- The check of a task goes on. -/
theorem setCheck (h : IpcInv s contents place) {c : CheckPc}
    (hcheck : CheckOk (s.pc p) (s.task p) (contents p) c) :
    IpcInv (s.setCheck p c) contents place := by
  have hp := h.tasks p
  rw [Ipc.setCheck_eq_put]
  exact h.put rfl rfl ⟨hp.alive, hp.send, hp.stamped, hp.recv, hcheck, hp.received⟩

/-- The check of a blocked task begins with the flag that tells which call it is in. -/
theorem check_idle (h : IpcInv s contents place) (hblocked : s.Blocked p = true)
    (hstep : (if (s.task p).recvFlag = 1 then some (s.setCheck p .readIntr)
      else some (s.setCheck p .readSendFlag)) = some t) :
    IpcInv t contents place := by
  have hrecv := (h.tasks p).recv
  unfold Ipc.Blocked at hblocked
  split at hstep
  · next hflag =>
      cases hstep
      apply h.setCheck
      cases hpc : s.pc p with
      | receiving src msg => exact ⟨src, msg, rfl⟩
      | waiting | sending =>
          rw [hpc] at hrecv
          have hzero : (s.task p).recvFlag = 0 := hrecv
          simp [hzero] at hflag
      | _ => simp [hpc] at hblocked
  · next hflag =>
      cases hstep
      apply h.setCheck
      cases hpc : s.pc p with
      | receiving src msg =>
          rw [hpc] at hrecv
          exact absurd hrecv.1 hflag
      | waiting => exact Or.inl rfl
      | sending dst msg => exact Or.inr ⟨dst, msg, rfl⟩
      | _ => simp [hpc] at hblocked

/-- The check has seen a message and looks at the source the task waits for. -/
theorem check_readFrom (h : IpcInv s contents place) (hc : s.check p = .readFrom)
    (hstep : s.ipcCheck p = some t) : IpcInv t contents place := by
  have hp := h.tasks p
  rw [hc] at hp
  obtain ⟨src, msg, hpc, hany⟩ := hp.check
  have hblocked : s.Blocked p = true := by simp [Ipc.Blocked, hpc]
  rw [hpc] at hp
  obtain ⟨-, hfrom, hnamed⟩ := hp.recv
  simp only [Ipc.ipcCheck, hblocked, hc, hfrom, not_true_eq_false, if_false] at hstep
  split at hstep
  · next hsrc =>
      cases hstep
      apply h.setCheck
      rw [hpc, hsrc]
      exact ⟨msg, rfl⟩
  · next hsrc =>
      split at hstep
      · cases hstep
        apply h.setCheck
        exact ⟨msg, hpc⟩
      · next hrange =>
          cases hstep
          apply h.setCheck
          refine ⟨src, msg, hpc, hany, fun heq => absurd heq hsrc, fun q hq => ?_⟩
          have hlt := q.isLt
          unfold minPid maxPid at hrange
          unfold pidOf at hq
          omega

theorem check_findSender (h : IpcInv s contents place) {src : Int}
    (hc : s.check p = .findSender src) (hstep : s.ipcCheck p = some t) :
    IpcInv t contents place := by
  have hp := h.tasks p
  rw [hc] at hp
  obtain ⟨msg, hpc⟩ := hp.check
  have hblocked : s.Blocked p = true := by simp [Ipc.Blocked, hpc]
  have hexist := h.exist_of_ne_user (p := p) (by simp [hpc])
  simp only [Ipc.ipcCheck, hblocked, hc, not_true_eq_false, if_false, Option.bind_eq_bind,
    Option.bind_eq_some_iff] at hstep
  obtain ⟨q, hq, found, hfound, heq⟩ := hstep
  obtain ⟨hsrc, -⟩ := Ipc.pidToTask_eq_some.mp hq
  have hlen : (contents p).length < numTasks + 1 := by
    have hle := (h.lists.nodup p hexist).length_le_card
    rw [Fintype.card_fin] at hle
    omega
  rw [h.lists.listFind hexist hlen, Option.some.injEq] at hfound
  cases heq
  split
  · next hyes =>
      apply h.setCheck
      rw [← hfound, decide_eq_true_eq] at hyes
      refine ⟨src, msg, hpc, Or.inr (List.ne_nil_of_mem hyes), fun heq => ?_, fun q' hq' => ?_⟩
      · exact absurd (hsrc.symm.trans heq) (Ipc.pidOf_ne_recvFromInt q)
      · exact Ipc.pidOf_inj (hsrc.symm.trans hq') ▸ hyes
  · exact h.setCheck trivial

/-- The check clears `recv_flag` and wakes the receiver. -/
theorem check_clearFlag (h : IpcInv s contents place) (hc : s.check p = .clearFlag)
    (hstep : s.ipcCheck p = some t) : IpcInv t contents place := by
  have hp := h.tasks p
  rw [hc] at hp
  obtain ⟨src, msg, hpc, hready⟩ := hp.check
  have hblocked : s.Blocked p = true := by simp [Ipc.Blocked, hpc]
  have hexist := h.exist_of_ne_user (p := p) (by simp [hpc])
  rw [hpc] at hp
  have hwake : t = s.put p (.recvSelect src msg) { s.task p with recvFlag := 0 } (s.record p)
      .idle := by
    simp only [Ipc.ipcCheck, hblocked, hc, not_true_eq_false, if_false, Ipc.wake, Ipc.setTask,
      hpc] at hstep
    cases hstep
    simp [Ipc.setCheck, Ipc.setPc, Ipc.put]
  rw [hwake]
  exact h.put rfl (by rw [hpc]; rfl)
    ⟨Or.inl hexist, hp.send, hp.stamped, ⟨rfl, hp.recv.2.2, hready.any, hready.intr,
      hready.sender⟩, trivial, hp.received⟩

/-- The check of a task that does not receive wakes a sender whose message is gone. -/
theorem check_readSendFlag (h : IpcInv s contents place) (hc : s.check p = .readSendFlag)
    (hstep : s.ipcCheck p = some t) : ∃ contents place, IpcInv t contents place := by
  have hp := h.tasks p
  rw [hc] at hp
  have hblocked : s.Blocked p = true := by
    rcases hp.check with hpc | ⟨dst, msg, hpc⟩ <;> simp [Ipc.Blocked, hpc]
  simp only [Ipc.ipcCheck, hblocked, hc, not_true_eq_false, if_false] at hstep
  split at hstep
  · cases hstep
    exact ⟨_, _, h.setCheck trivial⟩
  · next hflag =>
      cases hstep
      rcases hp.check with hpc | ⟨dst, msg, hpc⟩
      · simp only [Ipc.wake, hpc]
        exact ⟨_, _, h.setCheck trivial⟩
      · simp only [Ipc.wake, hpc]
        exact ⟨_, _, h.leave hpc hflag⟩

/-- Every step of a check keeps the invariant. -/
theorem ipcCheck (h : IpcInv s contents place) (hstep : s.ipcCheck p = some t) :
    ∃ contents place, IpcInv t contents place := by
  have hp := h.tasks p
  have hblocked : s.Blocked p = true := by
    by_contra hblocked
    simp [Ipc.ipcCheck, hblocked] at hstep
  cases hc : s.check p with
  | idle =>
      simp only [Ipc.ipcCheck, hblocked, hc, not_true_eq_false, if_false] at hstep
      exact ⟨_, _, h.check_idle hblocked hstep⟩
  | readIntr =>
      simp only [Ipc.ipcCheck, hblocked, hc, not_true_eq_false, if_false] at hstep
      rw [hc] at hp
      obtain ⟨src, msg, hpc⟩ := hp.check
      split at hstep
      · next hintr =>
          cases hstep
          exact ⟨_, _, h.setCheck ⟨src, msg, hpc, Or.inl hintr⟩⟩
      · cases hstep
        exact ⟨_, _, h.setCheck ⟨src, msg, hpc⟩⟩
  | readList =>
      simp only [Ipc.ipcCheck, hblocked, hc, not_true_eq_false, if_false] at hstep
      rw [hc] at hp
      obtain ⟨src, msg, hpc⟩ := hp.check
      split at hstep
      · cases hstep
        exact ⟨_, _, h.setCheck trivial⟩
      · next hempty =>
          cases hstep
          have hexist := h.exist_of_ne_user (p := p) (by simp [hpc])
          have hne : contents p ≠ [] := fun hnil =>
            hempty ((h.lists.listEmpty_iff hexist).mpr hnil)
          exact ⟨_, _, h.setCheck ⟨src, msg, hpc, Or.inr hne⟩⟩
  | readFrom => exact ⟨_, _, h.check_readFrom hc hstep⟩
  | readIntrAgain =>
      simp only [Ipc.ipcCheck, hblocked, hc, not_true_eq_false, if_false] at hstep
      rw [hc] at hp
      obtain ⟨msg, hpc⟩ := hp.check
      split at hstep
      · cases hstep
        exact ⟨_, _, h.setCheck trivial⟩
      · next hintr =>
          cases hstep
          exact ⟨_, _, h.setCheck ⟨recvFromInt, msg, hpc, Or.inl hintr, fun _ => hintr,
            fun q hq => absurd hq.symm (Ipc.pidOf_ne_recvFromInt q)⟩⟩
  | findSender src => exact ⟨_, _, h.check_findSender hc hstep⟩
  | clearFlag => exact ⟨_, _, h.check_clearFlag hc hstep⟩
  | readSendFlag => exact h.check_readSendFlag hc hstep

end IpcInv

end ClayFigure
