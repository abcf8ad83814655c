import Mistral.Db.Sessions

/-! The threads of a process run their transactions one after another. A transaction, and a call of a function that
    works with the database outside of one, is a block: in every run of the threads, what is committed and what the
    programs see is the same as when each block is one step. -/

namespace Mistral.Sessions

section
variable {δ ω ε K V T : Type} [DecidableEq K] (orm : Orm δ ω ε)

/-! ### What a block does -/

/-- What a part of a program does within a session: calls of functions that work with the database join it, what they
    have written stays when they raise, and no other transaction starts. -/
def Code.inside : Code ω ε K V → ω × LruCache K V → Except (Exc ε) V × ω × LruCache K V
  | .ret v, s => (.ok v, s)
  | .raise e, s => (.error e, s)
  | .bind c k, s =>
    match c.inside s with
    | (.ok v, s') => (k v).inside s'
    | (.error e, s') => (.error e, s')
  | .tryExcept c handler, s =>
    match c.inside s with
    | (.ok v, s') => (.ok v, s')
    | (.error e, s') => (handler e).inside s'
  | .statement f, s => ((f s.1).1.mapError .other, (f s.1).2, s.2)
  | .sessionAware c, s => c.inside s
  | .transaction _ _, s => (.error (.dataAccess alreadyStarted), s)
  | .cached key c, s =>
    match s.2.lookup key with
    | some v => (.ok v, s.1, s.2.use 1000 key v)
    | none =>
      match c.inside s with
      | (.ok v, s') => (.ok v, s'.1, s'.2.use 1000 key v)
      | (.error e, s') => (.error e, s')

/-- How a block ends: what is committed, and its result. All that it has written is committed or none of it. -/
def settle (readOnly : Bool) (d : δ) : Except (Exc ε) V × ω → δ × Except (Exc ε) V
  | (.error e, _) => (d, .error e)
  | (.ok v, session) =>
    if readOnly then (d, .ok v) else ((orm.tryCommit d session).1, (orm.tryCommit d session).2.map fun _ => v)

def block (readOnly : Bool) (c : Code ω ε K V) (d : δ) : δ × Except (Exc ε) V :=
  let (r, session, _) := c.inside (orm.new d, [])
  settle orm readOnly d (r, session)

/-- A step of a thread, where a block is one step. -/
def Thread.atomicStep (d : δ) (th : Thread ω ε K V) : δ × Thread ω ε K V :=
  match th.control with
  | .eval (.sessionAware c) => ((block orm false c d).1, { th with control := .done (block orm false c d).2 })
  | .eval (.transaction readOnly c) =>
    ((block orm readOnly c d).1, { th with control := .done (block orm readOnly c d).2 })
  | _ => (d, (th.step orm () ⟨d, none⟩).2)

/-- A thread runs its next block in one step. -/
def Process.atomicStep [DecidableEq T] (p : Process δ ω ε K V T) (t : T) : Process δ ω ε K V T :=
  { p with
    committed := ((p.threads t).atomicStep orm p.committed).1
    threads := Function.update p.threads t ((p.threads t).atomicStep orm p.committed).2 }

/-- The threads run their blocks in the given order. -/
def Process.atomicRun [DecidableEq T] (p : Process δ ω ε K V T) (ls : List T) : Process δ ω ε K V T :=
  ls.foldl (·.atomicStep orm ·) p

/-- A block is a call of a function that works with the database, or a transaction with its flag. -/
def blockCode (c : Code ω ε K V) : Option Bool → Code ω ε K V
  | none => .sessionAware c
  | some readOnly => .transaction readOnly c

def blockEntry (c : Code ω ε K V) : Option Bool → Control ω ε K V
  | none => .enterSession c
  | some readOnly => .enterTx readOnly c

def blockFrame : Option Bool → Frame ω ε K V
  | none => .session true
  | some readOnly => .transaction readOnly

end

/-! ### Threads outside of a block -/

section
variable {δ ω ε K V T : Type} [DecidableEq K] {orm : Orm δ ω ε} {th a : Thread ω ε K V} {d : δ} {t : T} {s : Shared δ T}

def Frame.outer : Frame ω ε K V → Bool
  | .bind _ | .tryExcept _ => true
  | _ => false

/-- The thread works without a session, and has not entered a block. -/
structure Thread.Outside (th : Thread ω ε K V) : Prop where
  control : (∃ c, th.control = .eval c) ∨ ∃ r, th.control = .done r
  frames : ∀ f ∈ th.frames, f.outer
  locals : th.locals = {}

/-- A thread outside of a block is at a block, or takes a step of its own that is the same in both machines. -/
theorem Thread.Outside.step_cases [DecidableEq T] (h : th.Outside) (orm : Orm δ ω ε) (t : T) :
    (∃ c kind, th.control = .eval (blockCode c kind)) ∨
      ∃ th' : Thread ω ε K V, th'.Outside ∧ (∀ s : Shared δ T, th.step orm t s = (s, th')) ∧
        ∀ d, th.atomicStep orm d = (d, th') := by
  obtain ⟨control, frames, locals⟩ := th
  obtain ⟨⟨c, hc⟩ | ⟨r, hr⟩, hframes, hlocals⟩ := h
  · dsimp only at hc hframes hlocals
    subst hc hlocals
    cases c with
    | ret v => exact .inr ⟨⟨.done (.ok v), frames, {}⟩, ⟨.inr ⟨_, rfl⟩, hframes, rfl⟩, fun _ => rfl, fun _ => rfl⟩
    | raise e => exact .inr ⟨⟨.done (.error e), frames, {}⟩, ⟨.inr ⟨_, rfl⟩, hframes, rfl⟩, fun _ => rfl, fun _ => rfl⟩
    | bind c k =>
      refine .inr ⟨⟨.eval c, .bind k :: frames, {}⟩, ⟨.inl ⟨_, rfl⟩, ?_, rfl⟩, fun _ => rfl, fun _ => rfl⟩
      exact List.forall_mem_cons.mpr ⟨rfl, hframes⟩
    | tryExcept c handler =>
      refine .inr ⟨⟨.eval c, .tryExcept handler :: frames, {}⟩, ⟨.inl ⟨_, rfl⟩, ?_, rfl⟩, fun _ => rfl, fun _ => rfl⟩
      exact List.forall_mem_cons.mpr ⟨rfl, hframes⟩
    | statement f =>
      exact .inr ⟨⟨.done (.error .attributeError), frames, {}⟩, ⟨.inr ⟨_, rfl⟩, hframes, rfl⟩, fun _ => rfl, fun _ => rfl⟩
    | sessionAware c => exact .inl ⟨c, none, rfl⟩
    | transaction readOnly c => exact .inl ⟨c, some readOnly, rfl⟩
    | cached key c => exact .inr ⟨⟨.eval c, frames, {}⟩, ⟨.inl ⟨_, rfl⟩, hframes, rfl⟩, fun _ => rfl, fun _ => rfl⟩
  · dsimp only at hr hframes hlocals
    subst hr hlocals
    right
    cases frames with
    | nil => exact ⟨⟨.done r, [], {}⟩, ⟨.inr ⟨_, rfl⟩, hframes, rfl⟩, fun _ => rfl, fun _ => rfl⟩
    | cons f frames =>
      obtain ⟨hf, hrest⟩ := List.forall_mem_cons.mp hframes
      cases f with
      | bind k =>
        cases r with
        | ok v => exact ⟨⟨.eval (k v), frames, {}⟩, ⟨.inl ⟨_, rfl⟩, hrest, rfl⟩, fun _ => rfl, fun _ => rfl⟩
        | error e => exact ⟨⟨.done (.error e), frames, {}⟩, ⟨.inr ⟨_, rfl⟩, hrest, rfl⟩, fun _ => rfl, fun _ => rfl⟩
      | tryExcept handler =>
        cases r with
        | ok v => exact ⟨⟨.done (.ok v), frames, {}⟩, ⟨.inr ⟨_, rfl⟩, hrest, rfl⟩, fun _ => rfl, fun _ => rfl⟩
        | error e => exact ⟨⟨.eval (handler e), frames, {}⟩, ⟨.inl ⟨_, rfl⟩, hrest, rfl⟩, fun _ => rfl, fun _ => rfl⟩
      | cached key => cases hf
      | session created => cases hf
      | transaction readOnly => cases hf
      | lock => cases hf

end

/-! ### A thread in a block -/

section
variable {δ ω ε K V : Type} {orm : Orm δ ω ε}

theorem rollbackTx_of_quiet (h : orm.Quiet) (d : δ) (l : Locals ω K V) {session : ω} (hl : l.session = some session) :
    rollbackTx orm d l = .ok { l with session := some (orm.new d) } := by
  simp only [rollbackTx, hl, h.rollback]
  rfl

theorem endTx_of_quiet (h : orm.Quiet) (d : δ) (l : Locals ω K V) {session : ω} (hl : l.session = some session) :
    endTx orm d l = .ok (setThreadLocalSession none) := by
  simp only [endTx, hl, rollbackTx_of_quiet h d l hl, h.close]
  split <;> rfl

theorem closeSession_of_quiet (h : orm.Quiet) (session : ω) (r : Except (Exc ε) V) :
    closeSession orm session r = r := by
  simp only [closeSession, h.rollback, h.close]
  cases r <;> rfl

end

section
variable {δ ω ε K V T : Type} [DecidableEq K] {orm : Orm δ ω ε}

/-- How many times the frames have the lock. -/
def locks : List (Frame ω ε K V) → Nat
  | [] => 0
  | .lock :: frames => locks frames + 1
  | _ :: frames => locks frames

/-- The frames that a block puts on its own frame: within it no session is created and no transaction starts. -/
def Frame.inner : Frame ω ε K V → Bool
  | .session created => !created
  | .transaction _ => false
  | _ => true

/-- How the rest of a block goes on from the result of a part of it. -/
def resume : List (Frame ω ε K V) → Except (Exc ε) V × ω × LruCache K V → Except (Exc ε) V × ω × LruCache K V
  | [], x => x
  | .bind k :: frames, (.ok v, s) => resume frames ((k v).inside s)
  | .tryExcept handler :: frames, (.error e, s) => resume frames ((handler e).inside s)
  | .cached key :: frames, (.ok v, s) => resume frames (.ok v, s.1, s.2.use 1000 key v)
  | _ :: frames, x => resume frames x

def Control.inside : Control ω ε K V → ω × LruCache K V → Except (Exc ε) V × ω × LruCache K V
  | .eval c, s => c.inside s
  | .enterSession c, s => c.inside s
  | .enterTx _ _, s => (.error (.dataAccess alreadyStarted), s)
  | .done r, s => (r, s)

variable (orm) in
/-- A step in a block keeps what the block ends with. -/
theorem step_inside [DecidableEq T] (t : T) (d : δ) (n : Nat) {control : Control ω ε K V} {inner : List (Frame ω ε K V)}
    (frames : List (Frame ω ε K V)) (session : ω) (cache : LruCache K V) (hinner : ∀ f ∈ inner, f.inner) (hgoing : inner = [] → ∀ r, control ≠ .done r) :
    ∃ control' inner' session' cache', (∀ f ∈ inner', Frame.inner f) ∧
      Thread.step orm t ⟨d, some (t, n + 1 + locks inner)⟩
          ⟨control, inner ++ frames, ⟨some session, some cache⟩⟩ =
        (⟨d, some (t, n + 1 + locks inner')⟩, ⟨control', inner' ++ frames, ⟨some session', some cache'⟩⟩) ∧
      resume inner' (control'.inside (session', cache')) = resume inner (control.inside (session, cache)) := by
  cases control with
  | eval c =>
    cases c with
    | ret v => exact ⟨.done (.ok v), inner, session, cache, hinner, rfl, rfl⟩
    | raise e => exact ⟨.done (.error e), inner, session, cache, hinner, rfl, rfl⟩
    | bind c k =>
      refine ⟨.eval c, .bind k :: inner, session, cache, List.forall_mem_cons.mpr ⟨rfl, hinner⟩, rfl, ?_⟩
      simp only [Control.inside, Code.inside]
      obtain ⟨r, s⟩ := c.inside (session, cache)
      cases r <;> rfl
    | tryExcept c handler =>
      refine ⟨.eval c, .tryExcept handler :: inner, session, cache, List.forall_mem_cons.mpr ⟨rfl, hinner⟩, rfl, ?_⟩
      simp only [Control.inside, Code.inside]
      obtain ⟨r, s⟩ := c.inside (session, cache)
      cases r <;> rfl
    | statement f => exact ⟨.done ((f session).1.mapError .other), inner, (f session).2, cache, hinner, rfl, rfl⟩
    | sessionAware c =>
      refine ⟨.enterSession c, .lock :: inner, session, cache, List.forall_mem_cons.mpr ⟨rfl, hinner⟩, ?_, rfl⟩
      simp [Thread.step, acquire, locks, Nat.add_assoc]
    | transaction readOnly c =>
      refine ⟨.enterTx readOnly c, .lock :: inner, session, cache, List.forall_mem_cons.mpr ⟨rfl, hinner⟩, ?_, rfl⟩
      simp [Thread.step, acquire, locks, Nat.add_assoc]
    | cached key c =>
      cases hlookup : cache.lookup key with
      | some v =>
        refine ⟨.done (.ok v), inner, session, cache.use 1000 key v, hinner, ?_, ?_⟩
        · simp [Thread.step, hlookup]
        · simp [Control.inside, Code.inside, hlookup]
      | none =>
        refine ⟨.eval c, .cached key :: inner, session, cache, List.forall_mem_cons.mpr ⟨rfl, hinner⟩, ?_, ?_⟩
        · simp [Thread.step, hlookup, locks]
        · simp only [Control.inside, Code.inside, hlookup]
          obtain ⟨r, s⟩ := c.inside (session, cache)
          cases r <;> rfl
  | enterSession c =>
    exact ⟨.eval c, .session false :: inner, session, cache, List.forall_mem_cons.mpr ⟨rfl, hinner⟩,
      by simp [Thread.step, getOrCreateSession, locks], rfl⟩
  | enterTx readOnly c => exact ⟨.done (.error (.dataAccess alreadyStarted)), inner, session, cache, hinner, rfl, rfl⟩
  | done r =>
    cases inner with
    | nil => exact absurd rfl (hgoing rfl r)
    | cons f inner =>
      obtain ⟨hf, hrest⟩ := List.forall_mem_cons.mp hinner
      cases f with
      | bind k =>
        cases r with
        | ok v => exact ⟨.eval (k v), inner, session, cache, hrest, by simp [Thread.step, Frame.receive, locks], rfl⟩
        | error e =>
          exact ⟨.done (.error e), inner, session, cache, hrest, by simp [Thread.step, Frame.receive, locks], rfl⟩
      | tryExcept handler =>
        cases r with
        | ok v => exact ⟨.done (.ok v), inner, session, cache, hrest, by simp [Thread.step, Frame.receive, locks], rfl⟩
        | error e =>
          exact ⟨.eval (handler e), inner, session, cache, hrest, by simp [Thread.step, Frame.receive, locks], rfl⟩
      | cached key =>
        cases r with
        | ok v =>
          exact ⟨.done (.ok v), inner, session, cache.use 1000 key v, hrest,
            by simp [Thread.step, Frame.receive, locks], rfl⟩
        | error e =>
          exact ⟨.done (.error e), inner, session, cache, hrest, by simp [Thread.step, Frame.receive, locks], rfl⟩
      | session created =>
        cases created with
        | true => cases hf
        | false => exact ⟨.done r, inner, session, cache, hrest, by simp [Thread.step, leaveSession, locks], rfl⟩
      | transaction readOnly => cases hf
      | lock =>
        have hheld : n + 1 + locks (.lock :: inner) = n + locks inner + 2 := by
          simp only [locks]
          omega
        have hleft : n + 1 + locks inner = n + locks inner + 1 := by omega
        exact ⟨.done r, inner, session, cache, hrest, by rw [hheld, hleft]; rfl, rfl⟩

/-- How a block ends when nothing of its body is left. -/
theorem step_leave [DecidableEq T] (horm : orm.Quiet) (t : T) (d : δ) (lock : Option (T × Nat)) (kind : Option Bool) (r : Except (Exc ε) V)
    (frames : List (Frame ω ε K V)) (session : ω) (cache : LruCache K V) :
    Thread.step orm t ⟨d, lock⟩ ⟨.done r, blockFrame kind :: frames, ⟨some session, some cache⟩⟩ =
      (⟨(settle orm (kind.getD false) d (r, session)).1, lock⟩,
        ⟨.done (settle orm (kind.getD false) d (r, session)).2, frames, {}⟩) := by
  have hend : ∀ (d : δ) (w : ω), endTx orm d (⟨some w, some cache⟩ : Locals ω K V) = .ok (setThreadLocalSession none) :=
    fun d w => endTx_of_quiet horm d _ rfl
  have hrollback : rollbackTx orm d (⟨some session, some cache⟩ : Locals ω K V) = .ok ⟨some (orm.new d), some cache⟩ :=
    rollbackTx_of_quiet horm d _ rfl
  cases kind with
  | none => cases r <;> simp [Thread.step, blockFrame, leaveSession, closeSession_of_quiet horm, settle, setThreadLocalSession]
  | some readOnly =>
    cases r with
    | error e => simp [Thread.step, blockFrame, leaveTx, hend, settle, setThreadLocalSession]
    | ok v =>
      cases readOnly <;>
        simp [Thread.step, blockFrame, leaveTx, hend, hrollback, settle, setThreadLocalSession, commitTx]

/-! ### The simulation -/

/-- The thread `th` has the lock `n` times and is in a block, which `a` has before it, or has just ended. -/
inductive InBlock (orm : Orm δ ω ε) (d : δ) (th a : Thread ω ε K V) : Nat → Prop
  | entering {c : Code ω ε K V} {kind : Option Bool} {frames : List (Frame ω ε K V)}
      (ha : a = ⟨.eval (blockCode c kind), frames, {}⟩) (hth : th = ⟨blockEntry c kind, .lock :: frames, {}⟩) :
      InBlock orm d th a 1
  | within {c : Code ω ε K V} {kind : Option Bool} {control : Control ω ε K V} {inner frames : List (Frame ω ε K V)}
      {session : ω} {cache : LruCache K V} (ha : a = ⟨.eval (blockCode c kind), frames, {}⟩)
      (hth : th = ⟨control, inner ++ blockFrame kind :: .lock :: frames, ⟨some session, some cache⟩⟩)
      (hinner : ∀ f ∈ inner, f.inner)
      (hrest : resume inner (control.inside (session, cache)) = c.inside (orm.new d, [])) :
      InBlock orm d th a (1 + locks inner)
  | leaving {r : Except (Exc ε) V} {frames : List (Frame ω ε K V)} (ha : a = ⟨.done r, frames, {}⟩)
      (hth : th = ⟨.done r, .lock :: frames, {}⟩) : InBlock orm d th a 1

theorem InBlock.start_within {a : Thread ω ε K V} {c : Code ω ε K V} {kind : Option Bool} {frames : List (Frame ω ε K V)}
    {d : δ} (ha : a = ⟨.eval (blockCode c kind), frames, {}⟩) :
    InBlock orm d ⟨.eval c, blockFrame kind :: .lock :: frames, ⟨some (orm.new d), some []⟩⟩ a 1 := by
  have hinner : ∀ f ∈ ([] : List (Frame ω ε K V)), f.inner := by simp
  have hrest : resume [] (Control.inside (.eval c) (orm.new d, ([] : LruCache K V))) = c.inside (orm.new d, []) := rfl
  exact .within ha rfl hinner hrest

/-- The process `p` is where the process `a` is whose blocks are single steps, but for the owner of the lock. -/
structure Simulates [DecidableEq T] (orm : Orm δ ω ε) (p a : Process δ ω ε K V T) : Prop where
  committed : p.committed = a.committed
  outside : ∀ t, (a.threads t).Outside
  same : ∀ t, (∀ n, p.txLock ≠ some (t, n)) → p.threads t = a.threads t
  owner : ∀ t n, p.txLock = some (t, n) → InBlock orm p.committed (p.threads t) (a.threads t) n

section
variable [DecidableEq T] {p a : Process δ ω ε K V T} {t u : T}

theorem atomicStep_block {c : Code ω ε K V} {kind : Option Bool} {frames : List (Frame ω ε K V)} {l : Locals ω K V} {d : δ} :
    Thread.atomicStep orm d ⟨.eval (blockCode c kind), frames, l⟩ =
      ((block orm (kind.getD false) c d).1, ⟨.done (block orm (kind.getD false) c d).2, frames, l⟩) := by
  cases kind <;> rfl

/-- After a step of `t`, nobody has the lock or `t` is in a block. -/
theorem Simulates.of_step {s : Shared δ T} {th : Thread ω ε K V} (hstep : (p.threads t).step orm t p.toShared = (s, th))
    (hd : s.committed = a.committed) (hout : ∀ u, (a.threads u).Outside) (hother : ∀ u, u ≠ t → p.threads u = a.threads u)
    (ht : s.txLock = none ∧ th = a.threads t ∨ ∃ n, s.txLock = some (t, n) ∧ InBlock orm s.committed th (a.threads t) n) :
    Simulates orm (p.step orm t) a := by
  have hp : p.step orm t = { s with threads := Function.update p.threads t th } := by simp only [Process.step, hstep]
  have hne : ∀ u, u ≠ t → (p.step orm t).threads u = a.threads u := fun u hu => by
    rw [hp, ← hother u hu]
    exact Function.update_of_ne hu ..
  have hself : (p.step orm t).threads t = th := by
    rw [hp]
    exact Function.update_self ..
  have hlock : (p.step orm t).txLock = s.txLock := by rw [hp]
  refine ⟨by rw [hp]; exact hd, hout, fun u hu => ?_, fun u m hu => ?_⟩
  · by_cases hut : u = t
    · obtain ⟨-, hth⟩ | ⟨n, hn, -⟩ := ht
      · rw [hut, hself, hth]
      · exact absurd (by rw [hlock, hn, hut]) (hu n)
    · exact hne u hut
  · rw [hlock] at hu
    obtain ⟨hnone, -⟩ | ⟨n, hn, hblock⟩ := ht
    · rw [hnone] at hu
      cases hu
    · rw [hn] at hu
      obtain ⟨rfl, rfl⟩ := Prod.mk.inj (Option.some.inj hu)
      rw [hself, hp]
      exact hblock

omit [DecidableEq K] in
theorem outside_done {r : Except (Exc ε) V} {c : Code ω ε K V} {frames : List (Frame ω ε K V)}
    (h : Thread.Outside (⟨.eval c, frames, {}⟩ : Thread ω ε K V)) : Thread.Outside ⟨.done r, frames, {}⟩ :=
  ⟨.inr ⟨r, rfl⟩, h.frames, rfl⟩

/-- A step of a thread keeps the others. -/
theorem atomicStep_threads (hu : u ≠ t) : (a.atomicStep orm t).threads u = a.threads u := Function.update_of_ne hu ..

/-- The owner of the lock takes a step in its block. -/
theorem Simulates.owner_step (h : Simulates orm p a) (horm : orm.Quiet) {n : Nat} (hlock : p.txLock = some (t, n)) :
    Simulates orm (p.step orm t) a ∨ Simulates orm (p.step orm t) (a.atomicStep orm t) := by
  have hshared : p.toShared = ⟨p.committed, some (t, n)⟩ := by rw [← hlock]
  have hother : ∀ u, u ≠ t → p.threads u = a.threads u := fun u hu =>
    h.same u fun m hm => hu (by rw [hlock] at hm; exact (Prod.mk.inj (Option.some.inj hm)).1.symm)
  cases h.owner t n hlock with
  | @entering c kind frames ha hth =>
    have hstep : (p.threads t).step orm t p.toShared =
        (⟨p.committed, some (t, 1)⟩, ⟨.eval c, blockFrame kind :: .lock :: frames, ⟨some (orm.new p.committed), some []⟩⟩) := by
      rw [hth, hshared]
      cases kind <;> rfl
    exact .inl (.of_step hstep h.committed h.outside hother
      (.inr ⟨1, rfl, InBlock.start_within ha⟩))
  | @within c kind control inner frames session cache ha hth hinner hrest =>
    by_cases hgoing : inner = [] → ∀ r, control ≠ .done r
    · obtain ⟨control', inner', session', cache', hinner', hstep, hrest'⟩ :=
        step_inside orm t p.committed 0 (blockFrame kind :: .lock :: frames) session cache hinner hgoing
      rw [← hth] at hstep
      rw [Nat.zero_add, ← hshared] at hstep
      exact .inl (.of_step hstep h.committed h.outside hother
        (.inr ⟨1 + locks inner', rfl, .within ha rfl hinner' (hrest'.trans hrest)⟩))
    · obtain ⟨rfl, r, rfl⟩ : inner = [] ∧ ∃ r, control = .done r := by simpa using hgoing
      have hstep := step_leave horm t p.committed (some (t, 1)) kind r (.lock :: frames) session cache
      have hblock : block orm (kind.getD false) c p.committed = settle orm (kind.getD false) p.committed (r, session) := by
        simp only [resume, Control.inside] at hrest
        simp only [block, ← hrest]
      rw [← hblock] at hstep
      obtain ⟨d', r', hd'⟩ : ∃ d' r', block orm (kind.getD false) c p.committed = (d', r') := ⟨_, _, rfl⟩
      rw [hd'] at hstep
      have ha' : (a.threads t).atomicStep orm p.committed = (d', ⟨.done r', frames, {}⟩) := by
        rw [ha, atomicStep_block, hd']
      have hself : (a.atomicStep orm t).threads t = ⟨.done r', frames, {}⟩ := by
        simp only [Process.atomicStep, ← h.committed, ha', Function.update_self]
      have hstep' : (p.threads t).step orm t p.toShared = (⟨d', some (t, 1)⟩, ⟨.done r', .lock :: frames, {}⟩) := by
        rw [hth, hshared]
        exact hstep
      refine .inr (.of_step hstep' ?_ (fun u => ?_) (fun u hu => ?_) (.inr ⟨1, rfl, ?_⟩))
      · simp only [Process.atomicStep, ← h.committed, ha']
      · by_cases hu : u = t
        · rw [hu, hself]
          have := h.outside t
          rw [ha] at this
          exact outside_done this
        · rw [atomicStep_threads hu]
          exact h.outside u
      · rw [atomicStep_threads hu]
        exact hother u hu
      · rw [hself]
        exact .leaving rfl rfl
  | @leaving r frames ha hth =>
    have hstep : (p.threads t).step orm t p.toShared = (⟨p.committed, none⟩, ⟨.done r, frames, {}⟩) := by
      rw [hth, hshared]
      rfl
    exact .inl (.of_step hstep h.committed h.outside hother (.inl ⟨rfl, ha.symm⟩))

/-- A thread that has not the lock takes a step of its own, enters a block when the lock is free, or waits. -/
theorem Simulates.other_step (h : Simulates orm p a) (ht : ∀ n, p.txLock ≠ some (t, n)) :
    Simulates orm (p.step orm t) a ∨ Simulates orm (p.step orm t) (a.atomicStep orm t) := by
  have hsame := h.same t ht
  obtain ⟨c, kind, hc⟩ | ⟨th', hout, hstep, hatomic⟩ := (h.outside t).step_cases orm t
  · have hth : p.threads t = ⟨.eval (blockCode c kind), (a.threads t).frames, {}⟩ := by
      rw [hsame, ← hc, ← (h.outside t).locals]
    cases hlock : p.txLock with
    | none =>
      have hother : ∀ u, u ≠ t → p.threads u = a.threads u := fun u _ => h.same u (by simp [hlock])
      have hshared : p.toShared = ⟨p.committed, none⟩ := by rw [← hlock]
      have hstep : (p.threads t).step orm t p.toShared =
          (⟨p.committed, some (t, 1)⟩, ⟨blockEntry c kind, .lock :: (a.threads t).frames, {}⟩) := by
        rw [hth, hshared]
        cases kind <;> rfl
      exact .inl (.of_step hstep h.committed h.outside hother (.inr ⟨1, rfl, .entering (hsame ▸ hth) rfl⟩))
    | some owner =>
      obtain ⟨u, n⟩ := owner
      have hne : u ≠ t := fun hut => ht n (by rw [hlock, hut])
      have hshared : p.toShared = ⟨p.committed, some (u, n)⟩ := by rw [← hlock]
      have hwaits : p.step orm t = p := by
        have hstep : (p.threads t).step orm t p.toShared = (p.toShared, p.threads t) := by
          rw [hth, hshared]
          cases kind <;> simp [blockCode, Thread.step, acquire, hne]
        simp only [Process.step, hstep, Function.update_eq_self]
      rw [hwaits]
      exact .inl h
  · have hp : p.step orm t = { p with threads := Function.update p.threads t th' } := by
      simp only [Process.step, hsame, hstep]
    have ha : a.atomicStep orm t = { a with threads := Function.update a.threads t th' } := by
      simp only [Process.atomicStep, hatomic]
    rw [hp, ha]
    refine .inr ⟨h.committed, fun u => ?_, fun u hu => ?_, fun u n hu => ?_⟩
    · by_cases hut : u = t
      · rw [hut]
        simpa using hout
      · simpa [Function.update_of_ne hut] using h.outside u
    · by_cases hut : u = t
      · rw [hut]
        simp
      · simpa [Function.update_of_ne hut] using h.same u hu
    · have hut : u ≠ t := fun hut => ht n (hut ▸ hu)
      simpa [Function.update_of_ne hut] using h.owner u n hu

theorem Simulates.step (h : Simulates orm p a) (horm : orm.Quiet) (t : T) :
    ∃ ls : List T, Simulates orm (p.step orm t) (a.atomicRun orm ls) := by
  have hcases : Simulates orm (p.step orm t) a ∨ Simulates orm (p.step orm t) (a.atomicStep orm t) := by
    by_cases ht : ∃ n, p.txLock = some (t, n)
    · obtain ⟨n, hn⟩ := ht
      exact h.owner_step horm hn
    · exact h.other_step (not_exists.mp ht)
  obtain h | h := hcases
  · exact ⟨[], h⟩
  · exact ⟨[t], h⟩

theorem Simulates.run (h : Simulates orm p a) (horm : orm.Quiet) (ls : List T) :
    ∃ ls' : List T, Simulates orm (p.run orm ls) (a.atomicRun orm ls') := by
  induction ls generalizing p a with
  | nil => exact ⟨[], h⟩
  | cons t ls ih =>
    obtain ⟨first, h⟩ := h.step horm t
    obtain ⟨rest, h⟩ := ih h
    exact ⟨first ++ rest, by rwa [Process.atomicRun, List.foldl_append]⟩

theorem simulates_start (orm : Orm δ ω ε) (programs : T → Code ω ε K V) (d : δ) :
    Simulates orm (Process.start programs d) (Process.start programs d) :=
  ⟨rfl, fun t => ⟨.inl ⟨programs t, rfl⟩, by simp [Process.start], rfl⟩, fun _ _ => rfl, fun _ _ h => by cases h⟩

/-! ### What every run of the threads does -/

/-- The thread has come to the end of its program. -/
def Thread.Finished (th : Thread ω ε K V) : Prop := ∃ r, th.control = .done r ∧ th.frames = []

/-- The thread waits for the lock. -/
def Waits (p : Process δ ω ε K V T) (t : T) : Prop :=
  ∃ c kind, (p.threads t).control = .eval (blockCode c kind) ∧ ∃ u n, p.txLock = some (u, n) ∧ u ≠ t

/-- A thread that is in a block has frames on its stack. -/
theorem InBlock.not_finished {d : δ} {th a : Thread ω ε K V} {n : Nat} (h : InBlock orm d th a n) : ¬th.Finished := by
  rintro ⟨r, hr, hframes⟩
  cases h with
  | entering ha hth => simp [hth] at hframes
  | within ha hth => simp [hth] at hframes
  | leaving ha hth => simp [hth] at hframes

/-- In every run of the threads of a process, whatever their programs do, where rollbacks and closes do not raise, the
    blocks have the effect of single steps: what is committed, and the programs of the threads outside of a block, are
    those of a run in which each block is one step. A thread outside of a block has no session and no cache; and while
    a program has not ended, a thread does not wait. -/
theorem blocks_are_serial (orm : Orm δ ω ε) (horm : orm.Quiet) (programs : T → Code ω ε K V) (d : δ) (ls : List T) :
    (∃ ls' : List T,
      ((Process.start programs d).run orm ls).committed =
        ((Process.start programs d).atomicRun orm ls').committed ∧
      ∀ t, (∀ n, ((Process.start programs d).run orm ls).txLock ≠ some (t, n)) →
        ((Process.start programs d).run orm ls).threads t =
          ((Process.start programs d).atomicRun orm ls').threads t) ∧
    (∀ t, (∀ n, ((Process.start programs d).run orm ls).txLock ≠ some (t, n)) →
      (((Process.start programs d).run orm ls).threads t).locals = {}) ∧
    ((∃ t, ¬(((Process.start programs d).run orm ls).threads t).Finished) →
      ∃ t, ¬(((Process.start programs d).run orm ls).threads t).Finished ∧
        ¬Waits ((Process.start programs d).run orm ls) t) := by
  obtain ⟨ls', h⟩ := (simulates_start orm programs d).run horm ls
  refine ⟨⟨ls', h.committed, h.same⟩, fun t ht => ?_, ?_⟩
  · rw [h.same t ht]
    exact (h.outside t).locals
  · rintro ⟨t, ht⟩
    cases hlock : ((Process.start programs d).run orm ls).txLock with
    | none =>
      refine ⟨t, ht, ?_⟩
      rintro ⟨-, -, -, u, n, hu, -⟩
      rw [hlock] at hu
      cases hu
    | some owner =>
      obtain ⟨u, n⟩ := owner
      refine ⟨u, (h.owner u n hlock).not_finished, ?_⟩
      rintro ⟨-, -, -, v, m, hv, hne⟩
      rw [hlock] at hv
      exact hne (Prod.mk.inj (Option.some.inj hv)).1.symm

end

end

/-- A database with a number in it. -/
def counter : Orm Nat Nat Unit where
  new d := d
  dirty _ := true
  commit n := .ok n
  rollback _ := .ok ()
  close _ := .ok ()

/-- Two threads count, each in a transaction of its own. The second one waits for the first, and both end without a
    session. -/
theorem counter_outside :
    (((Process.start (fun _ : Fin 2 => (.transaction false (.statement fun n => (.ok (), n + 1)) : Code Nat Unit Unit Unit))
      0).run counter [0, 1, 0, 0, 1, 0, 0, 1, 1, 1, 1, 1]).threads 1).locals = {} :=
  (blocks_are_serial counter ⟨fun _ => rfl, fun _ => rfl⟩ _ 0 [0, 1, 0, 0, 1, 0, 0, 1, 1, 1, 1, 1]).2.1 1 fun n hn => by
    cases hn

end Mistral.Sessions
