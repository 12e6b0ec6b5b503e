import CShellXv6.Lib.Runs
import Mathlib.Logic.Function.Basic

/-!
# Monitors

Threads share data under one lock. With the lock held, a thread may wake up all who wait on a
channel, one after the other, and it may wait on a channel itself: it says so under the lock, gives
the lock back, and goes to sleep only then, unless it has been woken up in between. A thread that
sleeps may also be killed, which lets it go on.

`Waits k l d` says that it is right to wait on the channel `k` at the place `l`, and `Owes l k` that
a thread with the lock at `l` has still to wake up `k`. If every step that ends a reason to wait
owes a wakeup, and no debt is left when the lock is given back, then no wakeup is lost: whoever
waits without a reason is about to be woken up (`noLost_step`).
-/

namespace CShellXv6

namespace Monitor

/-- What a thread does next, with the lock held. -/
inductive Act (K L : Type*) where
  | go (l : L)
  | wakeup (k : K) (l : L)
  | wait (k : K) (l : L)
  | leave (l : L)
  deriving DecidableEq

/-- Where the thread goes on. -/
def Act.place {K L : Type*} : Act K L → L
  | go l | wakeup _ l | wait _ l | leave l => l

/-- Where a thread is: without the lock, waiting for the lock, with the lock, with the lock inside
of a wakeup of the threads in `left`, behind the announcement of a wait, between that and the sleep,
or asleep. -/
inductive Status (T K L : Type*) where
  | out (l : L)
  | ready (l : L)
  | inside (l : L)
  | waking (k : K) (left : List T) (l : L)
  | prepared (l : L)
  | drowsy (l : L)
  | asleep (l : L)
  deriving DecidableEq

structure State (T K L D : Type*) where
  data : D
  holder : Option T
  status : T → Status T K L
  chan : T → Option K
  killed : T → Bool

inductive Action (T L : Type*) where
  | call (t : T) (l : L)
  | acquire (t : T)
  | step (t : T)
  | wake (t : T)
  | release (t : T)
  | sleep (t : T)
  | kill (t : T)
  deriving DecidableEq

end Monitor

open Monitor

/-- `step` is what the code does under the lock, and `calls` what a thread outside may call. A
wakeup looks at the threads of `slots`. -/
structure Monitor (T K L D : Type*) where
  slots : List T
  step : T → L → Bool → D → D × Act K L
  calls : T → L → State T K L D → Bool

namespace Monitor

variable {T K L D : Type*}

namespace Status

def holds : Status T K L → Bool
  | inside _ | waking _ _ _ | prepared _ => true
  | out _ | ready _ | drowsy _ | asleep _ => false

/-- The place a waiting thread goes on from. -/
def waits : Status T K L → Option L
  | prepared l | drowsy l | asleep l => some l
  | out _ | ready _ | inside _ | waking _ _ _ => none

def place : Status T K L → L
  | out l | ready l | inside l | waking _ _ l | prepared l | drowsy l | asleep l => l

/-- The thread runs with the lock. -/
def works : Status T K L → Bool
  | inside _ | waking _ _ _ => true
  | out _ | ready _ | prepared _ | drowsy _ | asleep _ => false

/-- A thread that sleeps goes on. -/
def woken : Status T K L → Status T K L
  | asleep l => ready l
  | x => x

end Status

section System

variable [DecidableEq T] [DecidableEq K]

namespace State

def set (s : State T K L D) (t : T) (x : Status T K L) : State T K L D :=
  { s with status := Function.update s.status t x }

/-- The thread does what is next. -/
def act (slots : List T) (s : State T K L D) (t : T) : Act K L → State T K L D
  | .go l => s.set t (.inside l)
  | .wakeup k l => s.set t (.waking k slots l)
  | .wait k l => { s.set t (.prepared l) with chan := Function.update s.chan t (some k) }
  | .leave l => { s.set t (.out l) with holder := none }

/-- One round of the loop of a wakeup. -/
def wakeOne (s : State T K L D) (k : K) (u : T) : State T K L D :=
  if s.chan u = some k then
    { s.set u (s.status u).woken with chan := Function.update s.chan u none }
  else s

end State

variable (M : Monitor T K L D)

def exec (s : State T K L D) : Action T L → Option (State T K L D)
  | .call t l =>
    match s.status t with
    | .out _ => if M.calls t l s then some (s.set t (.ready l)) else none
    | _ => none
  | .acquire t =>
    match s.status t with
    | .ready l =>
      if s.holder = none then some { s.set t (.inside l) with holder := some t } else none
    | _ => none
  | .step t =>
    match s.status t with
    | .inside l =>
      let r := M.step t l (s.killed t) s.data
      some ({ s with data := r.1 }.act M.slots t r.2)
    | _ => none
  | .wake t =>
    match s.status t with
    | .waking _ [] l => some (s.set t (.inside l))
    | .waking k (u :: left) l => some ((s.wakeOne k u).set t (.waking k left l))
    | _ => none
  | .release t =>
    match s.status t with
    | .prepared l => some { s.set t (.drowsy l) with holder := none }
    | _ => none
  | .sleep t =>
    match s.status t with
    | .drowsy l => some (s.set t (if s.chan t = none then .ready l else .asleep l))
    | _ => none
  | .kill t => some { s.set t (s.status t).woken with killed := Function.update s.killed t true }

def system : System (Action T L) (State T K L D) where
  can a s := (M.exec s a).isSome
  next a s := (M.exec s a).getD s

instance (a : Action T L) (s : State T K L D) : Decidable (M.system.can a s) :=
  inferInstanceAs (Decidable (_ = true))

/-- The same, case by case. -/
inductive Step (s : State T K L D) : Action T L → State T K L D → Prop
  | call {t : T} {l m : L} (h : s.status t = .out m) (hc : M.calls t l s = true) :
    Step s (.call t l) (s.set t (.ready l))
  | acquire {t : T} {l : L} (h : s.status t = .ready l) (hfree : s.holder = none) :
    Step s (.acquire t) { s.set t (.inside l) with holder := some t }
  | step {t : T} {l : L} (h : s.status t = .inside l) :
    Step s (.step t) ({ s with data := (M.step t l (s.killed t) s.data).1 }.act M.slots t
      (M.step t l (s.killed t) s.data).2)
  | woke {t : T} {k : K} {l : L} (h : s.status t = .waking k [] l) :
    Step s (.wake t) (s.set t (.inside l))
  | wake {t u : T} {k : K} {left : List T} {l : L} (h : s.status t = .waking k (u :: left) l) :
    Step s (.wake t) ((s.wakeOne k u).set t (.waking k left l))
  | release {t : T} {l : L} (h : s.status t = .prepared l) :
    Step s (.release t) { s.set t (.drowsy l) with holder := none }
  | sleep {t : T} {l : L} (h : s.status t = .drowsy l) :
    Step s (.sleep t) (s.set t (if s.chan t = none then .ready l else .asleep l))
  | kill {t : T} : Step s (.kill t)
    { s.set t (s.status t).woken with killed := Function.update s.killed t true }

theorem step_of_can {a : Action T L} {s : State T K L D} (h : M.system.can a s) :
    M.Step s a (M.system.next a s) := by
  obtain ⟨s', hs'⟩ := Option.isSome_iff_exists.1 h
  rw [show M.system.next a s = s' by simp only [system, hs', Option.getD_some]]
  cases a with
  | call t l =>
    simp only [exec] at hs'
    split at hs'
    case h_2 => cases hs'
    case h_1 m hm =>
      split at hs'
      case isFalse => cases hs'
      case isTrue hc => exact Option.some.inj hs' ▸ .call hm hc
  | acquire t =>
    simp only [exec] at hs'
    split at hs'
    case h_2 => cases hs'
    case h_1 l hl =>
      split at hs'
      case isFalse => cases hs'
      case isTrue hc => exact Option.some.inj hs' ▸ .acquire hl hc
  | step t =>
    simp only [exec] at hs'
    split at hs'
    case h_2 => cases hs'
    case h_1 l hl => exact Option.some.inj hs' ▸ .step hl
  | wake t =>
    simp only [exec] at hs'
    split at hs'
    case h_1 k l hl => exact Option.some.inj hs' ▸ .woke hl
    case h_2 k u left l hl => exact Option.some.inj hs' ▸ .wake hl
    case h_3 => cases hs'
  | release t =>
    simp only [exec] at hs'
    split at hs'
    case h_2 => cases hs'
    case h_1 l hl => exact Option.some.inj hs' ▸ .release hl
  | sleep t =>
    simp only [exec] at hs'
    split at hs'
    case h_2 => cases hs'
    case h_1 l hl => exact Option.some.inj hs' ▸ .sleep hl
  | kill t => exact Option.some.inj hs' ▸ .kill

end System

/-- One thread at a time has the lock, and whoever sleeps waits on a channel. -/
structure Ok (s : State T K L D) : Prop where
  holder : ∀ t, s.holder = some t ↔ (s.status t).holds = true
  asleep : ∀ t l, s.status t = .asleep l → s.chan t ≠ none

/-- The thread waits on the channel and will go on at `l`. -/
def Waiting (s : State T K L D) (t : T) (k : K) (l : L) : Prop :=
  (s.status t).waits = some l ∧ s.chan t = some k

/-- The data are the same, no thread is at another place, and whoever ran with the lock still
does. -/
structure Still (s s' : State T K L D) : Prop where
  data : s'.data = s.data
  place : ∀ u, (s'.status u).place = (s.status u).place
  works : ∀ u, (s.status u).works = true → (s'.status u).works = true

theorem Still.trans {s s' s'' : State T K L D} (h : Still s s') (h' : Still s' s'') : Still s s'' :=
  ⟨h'.data.trans h.data, fun u => (h'.place u).trans (h.place u),
    fun u hu => h'.works u (h.works u hu)⟩

section Debt

variable (Owes : L → K → Prop)

/-- A wakeup of the channel is still due behind the step. -/
def Act.Owed (k : K) : Act K L → Prop
  | .go l => Owes l k
  | .wakeup k' l => k' = k ∨ Owes l k
  | .wait _ _ | .leave _ => False

/-- A thread here is going to wake up `t` on the channel `k`. -/
def Status.Debt (t : T) (k : K) : Status T K L → Prop
  | .inside l => Owes l k
  | .waking k' left l => (k' = k ∧ t ∈ left) ∨ Owes l k
  | .out _ | .ready _ | .prepared _ | .drowsy _ | .asleep _ => False

variable (Waits : K → L → D → Prop)

/-- Whoever waits has a reason to, or is about to be woken up. -/
def NoLost (s : State T K L D) : Prop :=
  ∀ t k l, Waiting s t k l → Waits k l s.data ∨ ∃ u, (s.status u).Debt Owes t k

/-- The step of the thread at `l` pays for the reasons to wait that it ends, and waits only with a
reason itself. -/
structure Pays (M : Monitor T K L D) (s : State T K L D) (t : T) (l : L) : Prop where
  others : ∀ u k m, Waiting s u k m → Waits k m s.data ∨ Owes l k →
    Waits k m (M.step t l (s.killed t) s.data).1
      ∨ (M.step t l (s.killed t) s.data).2.Owed Owes k
  wait : ∀ k m, (M.step t l (s.killed t) s.data).2 = .wait k m →
    Waits k m (M.step t l (s.killed t) s.data).1

end Debt

section Guarded

variable (J : D → Prop) (At : L → D → Prop)

/-- What the step leads to is as `At` says, wherever the lock has been given back in between. -/
def Act.Leads (d : D) : Act K L → Prop
  | .go l | .wakeup _ l => At l d
  | .wait _ l => ∀ d, J d → At l d
  | .leave _ => True

def Status.Fits (d : D) : Status T K L → Prop
  | .inside l | .waking _ _ l => At l d
  | .ready l | .prepared l | .drowsy l | .asleep l => ∀ d, J d → At l d
  | .out _ => True

/-- The data are as `J` says, and as `At` says for the thread with the lock. -/
structure Guarded (s : State T K L D) : Prop where
  data : J s.data
  places : ∀ t, (s.status t).Fits J At s.data

structure Guards (M : Monitor T K L D) : Prop where
  step : ∀ t l b d, J d → At l d →
    J (M.step t l b d).1 ∧ (M.step t l b d).2.Leads J At (M.step t l b d).1
  call : ∀ t l s, M.calls t l s = true → ∀ d, J d → At l d

end Guarded

section Invariants

variable {M : Monitor T K L D} {s s' : State T K L D} {a : Action T L}

/-- Who has the lock is the only one. -/
theorem Ok.eq (h : Ok s) {t u : T} (ht : (s.status t).holds = true)
    (hu : (s.status u).holds = true) : t = u :=
  Option.some.inj (((h.holder t).2 ht).symm.trans ((h.holder u).2 hu))

theorem holds_of_works {x : Status T K L} (h : x.works = true) : x.holds = true := by
  cases x <;> first | rfl | cases h

theorem works_of_debt {Owes : L → K → Prop} {t : T} {k : K} {x : Status T K L}
    (h : x.Debt Owes t k) : x.works = true := by
  cases x <;> first | rfl | cases h

/-- While no thread has the lock, whoever waits has a reason to. -/
theorem NoLost.waits {Owes : L → K → Prop} {Waits : K → L → D → Prop} (h : NoLost Owes Waits s)
    (hok : Ok s) (hfree : s.holder = none) {t : T} {k : K} {l : L} (hw : Waiting s t k l) :
    Waits k l s.data := by
  refine (h t k l hw).resolve_right ?_
  rintro ⟨u, hu⟩
  have := (hok.holder u).2 (holds_of_works (works_of_debt hu))
  rw [hfree] at this
  cases this

theorem holds_woken (x : Status T K L) : x.woken.holds = x.holds := by
  cases x <;> rfl

theorem place_woken (x : Status T K L) : x.woken.place = x.place := by
  cases x <;> rfl

theorem works_woken {x : Status T K L} (h : x.works = true) : x.woken.works = true := by
  cases x <;> exact h

theorem woken_ne_asleep (x : Status T K L) (l : L) : x.woken ≠ .asleep l := by
  cases x <;> simp [Status.woken]

theorem waits_woken {x : Status T K L} {l : L} (h : x.woken.waits = some l) :
    x.waits = some l := by
  cases x <;> simp_all [Status.woken, Status.waits]

theorem debt_woken {Owes : L → K → Prop} {t : T} {k : K} {x : Status T K L}
    (h : x.Debt Owes t k) : x.woken.Debt Owes t k := by
  cases x <;> simp_all [Status.woken, Status.Debt]

section

variable {J : D → Prop} {At : L → D → Prop}

theorem Status.Fits.woken {d : D} {x : Status T K L} (h : x.Fits J At d) : x.woken.Fits J At d := by
  cases x <;> exact h

/-- Without the lock, the data do not matter. -/
theorem Status.Fits.of_not_holds {d d' : D} {x : Status T K L} (h : x.Fits J At d)
    (hx : x.holds = false) : x.Fits J At d' := by
  cases x <;> first | exact h | cases hx

end

variable [DecidableEq T]

@[simp] theorem set_status_self (t : T) (x : Status T K L) : (s.set t x).status t = x :=
  Function.update_self ..

theorem set_status_of_ne {t u : T} (h : u ≠ t) (x : Status T K L) :
    (s.set t x).status u = s.status u :=
  Function.update_of_ne h ..

theorem place_set (t : T) (x : Status T K L) : (fun u => ((s.set t x).status u).place)
    = Function.update (fun u => (s.status u).place) t x.place := by
  funext u
  by_cases hut : u = t
  · rw [hut, set_status_self, Function.update_self]
  · rw [set_status_of_ne hut, Function.update_of_ne hut]

theorem place_act (slots : List T) (t : T) (a : Act K L) :
    (fun u => ((s.act slots t a).status u).place)
      = Function.update (fun u => (s.status u).place) t a.place := by
  cases a <;> exact place_set t _

theorem act_place_self (slots : List T) (t : T) (a : Act K L) :
    ((s.act slots t a).status t).place = a.place :=
  (congrFun (place_act slots t a) t).trans (Function.update_self ..)

@[simp] theorem act_data (slots : List T) (t : T) (a : Act K L) :
    (s.act slots t a).data = s.data := by
  cases a <;> rfl

theorem act_status_of_ne {t u : T} (h : u ≠ t) (slots : List T) (a : Act K L) :
    (s.act slots t a).status u = s.status u := by
  cases a <;> exact set_status_of_ne h _

/-- One thread goes on from where it is. -/
theorem Still.update {t : T} {x : Status T K L} (hs : s'.status = Function.update s.status t x)
    (hd : s'.data = s.data) (hp : x.place = (s.status t).place)
    (hw : (s.status t).works = true → x.works = true) : Still s s' := by
  refine ⟨hd, fun u => ?_, fun u => ?_⟩ <;> rw [hs] <;> by_cases hut : u = t
  · rw [hut, Function.update_self, hp]
  · rw [Function.update_of_ne hut]
  · rw [hut, Function.update_self]
    exact hw
  · rw [Function.update_of_ne hut]
    exact id

/-- One thread goes on: it keeps the lock or stays without it, takes it, or gives it back. -/
theorem Ok.update {t : T} {x : Status T K L} (h : Ok s)
    (hs : s'.status = Function.update s.status t x) (hc : ∀ u, u ≠ t → s'.chan u = s.chan u)
    (hx : ∀ l, x = .asleep l → s'.chan t ≠ none)
    (hh : (x.holds = (s.status t).holds ∧ s'.holder = s.holder)
      ∨ (s.holder = none ∧ x.holds = true ∧ s'.holder = some t)
      ∨ ((s.status t).holds = true ∧ x.holds = false ∧ s'.holder = none)) : Ok s' where
  holder u := by
    have hu := h.holder u
    have ht := h.holder t
    by_cases hut : u = t
    · subst hut
      rw [hs, Function.update_self]
      rcases hh with ⟨h1, h2⟩ | ⟨h1, h2, h3⟩ | ⟨h1, h2, h3⟩ <;> simp_all
    · rw [hs, Function.update_of_ne hut]
      rcases hh with ⟨h1, h2⟩ | ⟨h1, h2, h3⟩ | ⟨h1, h2, h3⟩ <;> grind
  asleep u l hu := by
    by_cases hut : u = t
    · subst hut
      rw [hs, Function.update_self] at hu
      exact hx l hu
    · rw [hs, Function.update_of_ne hut] at hu
      rw [hc u hut]
      exact h.asleep u l hu

section

variable {Owes : L → K → Prop} {Waits : K → L → D → Prop} {t : T} {x : Status T K L}

/-- One thread goes on. Whoever waits behind it waited before, or has a reason to; and who had a
reason, or was to be woken up by that thread, still has one or still is. -/
theorem NoLost.update (h : NoLost Owes Waits s) (hs : s'.status = Function.update s.status t x)
    (hw : ∀ u k l, Waiting s' u k l → Waiting s u k l ∨ Waits k l s'.data)
    (hd : ∀ u k l, Waiting s' u k l → Waiting s u k l →
      Waits k l s.data ∨ (s.status t).Debt Owes u k → Waits k l s'.data ∨ x.Debt Owes u k) :
    NoLost Owes Waits s' := by
  intro u k l hu
  rcases hw u k l hu with hu' | hu'
  · have hx : x.Debt Owes u k → ∃ v, (s'.status v).Debt Owes u k := fun hx =>
      ⟨t, by rwa [hs, Function.update_self]⟩
    rcases h u k l hu' with hr | ⟨v, hv⟩
    · exact (hd u k l hu hu' (.inl hr)).imp_right hx
    · by_cases hvt : v = t
      · exact (hd u k l hu hu' (.inr (hvt ▸ hv))).imp_right hx
      · exact .inr ⟨v, by rwa [hs, Function.update_of_ne hvt]⟩
  · exact .inl hu'

/-- A thread that waits, waits from where it was. -/
theorem Waiting.of_update (hs : s'.status = Function.update s.status t x)
    (hc : ∀ u, u ≠ t → s'.chan u = s.chan u)
    (hx : ∀ l, x.waits = some l → (s.status t).waits = some l ∧ s'.chan t = s.chan t) {u : T}
    {k : K} {l : L} (hu : Waiting s' u k l) : Waiting s u k l := by
  obtain ⟨h1, h2⟩ := hu
  rw [hs] at h1
  by_cases hut : u = t
  · subst hut
    rw [Function.update_self] at h1
    obtain ⟨h3, h4⟩ := hx l h1
    exact ⟨h3, by rw [← h4, h2]⟩
  · rw [Function.update_of_ne hut] at h1
    exact ⟨h1, by rw [← hc u hut, h2]⟩

/-- One thread goes on, and does not begin to wait. -/
theorem NoLost.pass (h : NoLost Owes Waits s) (hs : s'.status = Function.update s.status t x)
    (hc : s'.chan = s.chan) (hx : ∀ l, x.waits = some l → (s.status t).waits = some l)
    (hd : ∀ u k l, Waiting s u k l → Waits k l s.data ∨ (s.status t).Debt Owes u k →
      Waits k l s'.data ∨ x.Debt Owes u k) : NoLost Owes Waits s' :=
  h.update hs (fun _ _ _ hu => .inl (hu.of_update hs (fun _ _ => by rw [hc])
    fun l hl => ⟨hx l hl, by rw [hc]⟩)) fun u k l _ => hd u k l

/-- One thread goes on without the data, and keeps what it owes. -/
theorem NoLost.keep (h : NoLost Owes Waits s) (hs : s'.status = Function.update s.status t x)
    (hdata : s'.data = s.data) (hc : s'.chan = s.chan)
    (hx : ∀ l, x.waits = some l → (s.status t).waits = some l)
    (hd : ∀ u k, (s.status t).Debt Owes u k → x.Debt Owes u k) : NoLost Owes Waits s' := by
  refine h.pass hs hc hx fun u k l _ => ?_
  rw [hdata]
  exact Or.imp_right (hd u k)

theorem noLost_pays {t : T} {l : L} (hslots : ∀ u k m, Waiting s u k m → u ∈ M.slots)
    (h : NoLost Owes Waits s) (ht : s.status t = .inside l) (hp : Pays Owes Waits M s t l) :
    NoLost Owes Waits ({ s with data := (M.step t l (s.killed t) s.data).1 }.act M.slots t
      (M.step t l (s.killed t) s.data).2) := by
  have hdebt : ∀ u k, (s.status t).Debt Owes u k ↔ Owes l k := by simp [ht, Status.Debt]
  have ho := hp.others
  have hw := hp.wait
  cases hact : (M.step t l (s.killed t) s.data).2 with
  | go l' =>
    rw [hact] at ho
    refine h.pass rfl rfl (by simp [Status.waits]) fun u k m hu hr => ?_
    rw [hdebt] at hr
    exact ho u k m hu hr
  | wakeup k' l' =>
    rw [hact] at ho
    refine h.pass rfl rfl (by simp [Status.waits]) fun u k m hu hr => ?_
    rw [hdebt] at hr
    exact (ho u k m hu hr).imp_right (Or.imp_left fun hk => ⟨hk, hslots u k m hu⟩)
  | wait k' l' =>
    rw [hact] at ho
    refine h.update (t := t) rfl (fun u k m hu => ?_) fun u k m _ hu hr => ?_
    · obtain ⟨h1, h2⟩ := hu
      by_cases hut : u = t
      · simp only [hut, State.act, set_status_self, Function.update_self, Status.waits] at h1 h2
        cases h1
        cases h2
        exact .inr (hw _ _ hact)
      · simp only [State.act, set_status_of_ne hut, Function.update_of_ne hut] at h1 h2
        exact .inl ⟨h1, h2⟩
    · rw [hdebt] at hr
      exact .inl ((ho u k m hu hr).resolve_right id)
  | leave l' =>
    rw [hact] at ho
    refine h.pass rfl rfl (by simp [Status.waits]) fun u k m hu hr => ?_
    rw [hdebt] at hr
    exact .inl ((ho u k m hu hr).resolve_right id)

end

section

variable {J : D → Prop} {At : L → D → Prop}

theorem Guarded.update {t : T} {x : Status T K L} (h : Guarded J At s)
    (hs : s'.status = Function.update s.status t x) (hd : s'.data = s.data)
    (hx : x.Fits J At s.data) : Guarded J At s' := by
  refine ⟨hd ▸ h.data, fun u => ?_⟩
  rw [hs, hd]
  by_cases hut : u = t
  · rw [hut, Function.update_self]
    exact hx
  · rw [Function.update_of_ne hut]
    exact h.places u

theorem Guarded.act {t : T} {l : L} (hok : Ok s) (hM : Guards J At M) (h : Guarded J At s)
    (ht : s.status t = .inside l) :
    Guarded J At ({ s with data := (M.step t l (s.killed t) s.data).1 }.act M.slots t
      (M.step t l (s.killed t) s.data).2) := by
  have hat : At l s.data := by
    have := h.places t
    rwa [ht] at this
  obtain ⟨hJ, hl⟩ := hM.step t l (s.killed t) s.data h.data hat
  have hothers : ∀ u, u ≠ t → (s.status u).Fits J At (M.step t l (s.killed t) s.data).1 := by
    intro u hut
    refine (h.places u).of_not_holds ?_
    by_contra hu
    exact hut (hok.eq (by simpa using hu) (by rw [ht]; rfl))
  have hput : ∀ x : Status T K L, x.Fits J At (M.step t l (s.killed t) s.data).1 → ∀ u,
      (Function.update s.status t x u).Fits J At (M.step t l (s.killed t) s.data).1 := by
    intro x hx u
    by_cases hut : u = t
    · rw [hut, Function.update_self]
      exact hx
    · rw [Function.update_of_ne hut]
      exact hothers u hut
  cases hact : (M.step t l (s.killed t) s.data).2 <;> rw [hact] at hl <;> exact ⟨hJ, hput _ hl⟩

end

variable [DecidableEq K]

theorem wakeOne_data (k : K) (u : T) : (s.wakeOne k u).data = s.data := by
  unfold State.wakeOne
  split <;> rfl

theorem wakeOne_chan_ne (k : K) (u : T) : (s.wakeOne k u).chan u ≠ some k := by
  unfold State.wakeOne
  split
  case isFalse hc => exact hc
  case isTrue => simp

/-- A thread inside of a wakeup may find itself. -/
theorem wakeOne_waking {t : T} {k : K} {left : List T} {l : L} (h : s.status t = .waking k left l)
    (u : T) : (s.wakeOne k u).status t = .waking k left l := by
  unfold State.wakeOne
  split
  case isFalse => exact h
  case isTrue =>
    by_cases htu : t = u
    · subst htu
      simp [h, Status.woken]
    · simp [set_status_of_ne htu, h]

theorem Ok.wakeOne (h : Ok s) (k : K) (u : T) : Ok (s.wakeOne k u) := by
  unfold State.wakeOne
  split
  case isFalse => exact h
  case isTrue =>
    refine h.update rfl (fun t ht => Function.update_of_ne ht ..) (fun l hl => ?_)
      (.inl ⟨holds_woken _, rfl⟩)
    exact absurd hl (woken_ne_asleep _ l)

theorem ok_step (h : Ok s) (hc : M.Step s a s') : Ok s' := by
  have hdata : ∀ d : D, Ok { s with data := d } := fun d => ⟨h.holder, h.asleep⟩
  cases hc with
  | call ht => exact h.update rfl (fun _ _ => rfl) (by simp) (.inl ⟨by rw [ht]; rfl, rfl⟩)
  | acquire ht hfree =>
    exact h.update rfl (fun _ _ => rfl) (by simp) (.inr (.inl ⟨hfree, rfl, rfl⟩))
  | @step t l ht =>
    have hin : (s.status t).holds = true := by rw [ht]; rfl
    cases (M.step t l (s.killed t) s.data).2 with
    | go l' =>
      exact (hdata _).update rfl (fun _ _ => rfl) (by simp) (.inl ⟨hin.symm, rfl⟩)
    | wakeup k l' =>
      exact (hdata _).update rfl (fun _ _ => rfl) (by simp) (.inl ⟨hin.symm, rfl⟩)
    | wait k l' =>
      exact (hdata _).update rfl (fun _ hu => Function.update_of_ne hu ..) (by simp)
        (.inl ⟨hin.symm, rfl⟩)
    | leave l' =>
      exact (hdata _).update rfl (fun _ _ => rfl) (by simp) (.inr (.inr ⟨hin, rfl, rfl⟩))
  | woke ht => exact h.update rfl (fun _ _ => rfl) (by simp) (.inl ⟨by rw [ht]; rfl, rfl⟩)
  | @wake t u k left l ht =>
    refine (h.wakeOne k u).update rfl (fun _ _ => rfl) (by simp) (.inl ⟨?_, rfl⟩)
    rw [wakeOne_waking ht]
    rfl
  | release ht =>
    exact h.update rfl (fun _ _ => rfl) (by simp) (.inr (.inr ⟨by rw [ht]; rfl, rfl, rfl⟩))
  | @sleep t l ht =>
    refine h.update rfl (fun _ _ => rfl) (fun m hm => ?_) (.inl ⟨?_, rfl⟩)
    · split at hm
      case isTrue => cases hm
      case isFalse hc => exact hc
    · rw [ht]
      split <;> rfl
  | kill =>
    exact h.update rfl (fun _ _ => rfl) (fun l hl => absurd hl (woken_ne_asleep _ l))
      (.inl ⟨holds_woken _, rfl⟩)

theorem Still.wakeOne (k : K) (u : T) : Still s (s.wakeOne k u) := by
  unfold State.wakeOne
  split
  case isFalse => exact ⟨rfl, fun _ => rfl, fun _ => id⟩
  case isTrue => exact .update rfl rfl (place_woken _) fun h => works_woken h

/-- Only a call and a step of the code lead to another place, and whoever runs with the lock does so
until a step of the code. -/
theorem moves_of_step (hc : M.Step s a s') :
    (∃ t l m, s.status t = .out m ∧ M.calls t l s = true ∧ s' = s.set t (.ready l))
      ∨ (∃ t l, a = .step t ∧ s.status t = .inside l
        ∧ s' = { s with data := (M.step t l (s.killed t) s.data).1 }.act M.slots t
          (M.step t l (s.killed t) s.data).2)
      ∨ Still s s' := by
  cases hc with
  | call ht hcall => exact .inl ⟨_, _, _, ht, hcall, rfl⟩
  | step ht => exact .inr (.inl ⟨_, _, rfl, ht, rfl⟩)
  | acquire ht | woke ht =>
    exact .inr (.inr (.update rfl rfl (by rw [ht]; rfl) fun _ => rfl))
  | @wake t u k left l ht =>
    refine .inr (.inr ((Still.wakeOne k u).trans (.update rfl rfl ?_ fun _ => rfl)))
    rw [wakeOne_waking ht]
    rfl
  | release ht =>
    exact .inr (.inr (.update rfl rfl (by rw [ht]; rfl) (by rw [ht]; exact fun h => nomatch h)))
  | sleep ht =>
    refine .inr (.inr (.update rfl rfl ?_ (by rw [ht]; exact fun h => nomatch h)))
    rw [ht]
    split <;> rfl
  | kill => exact .inr (.inr (.update rfl rfl (place_woken _) fun h => works_woken h))

section

variable {J : D → Prop} {At : L → D → Prop}

theorem Guarded.wakeOne (h : Guarded J At s) (k : K) (u : T) : Guarded J At (s.wakeOne k u) := by
  unfold State.wakeOne
  split
  case isFalse => exact h
  case isTrue => exact h.update rfl rfl (h.places u).woken

theorem guarded_step (hM : Guards J At M) (hok : Ok s) (h : Guarded J At s) (hc : M.Step s a s') :
    Guarded J At s' := by
  have hfits : ∀ {t x}, s.status t = x → x.Fits J At s.data := fun ht => ht ▸ h.places _
  cases hc with
  | call ht hcall => exact h.update rfl rfl (hM.call _ _ _ hcall)
  | acquire ht => exact h.update rfl rfl (hfits ht _ h.data)
  | step ht => exact h.act hok hM ht
  | woke ht =>
    have := hfits ht
    exact h.update rfl rfl this
  | @wake t u k left l ht =>
    have := hfits ht
    rw [← wakeOne_data k u] at this
    exact (h.wakeOne k u).update rfl rfl this
  | release ht =>
    have := hfits ht
    exact h.update rfl rfl this
  | sleep ht =>
    have := hfits ht
    refine h.update rfl rfl ?_
    split <;> exact this
  | kill => exact h.update rfl rfl (h.places _).woken

end

section

variable {Owes : L → K → Prop} {Waits : K → L → D → Prop}

theorem NoLost.wakeOne (h : NoLost Owes Waits s) (k : K) (u : T) :
    NoLost Owes Waits (s.wakeOne k u) := by
  unfold State.wakeOne
  split
  case isFalse => exact h
  case isTrue =>
    refine h.update rfl (fun v j m hv => .inl ?_) fun v j m _ _ => Or.imp_right debt_woken
    obtain ⟨h1, h2⟩ := hv
    by_cases hvu : v = u
    · simp [hvu] at h2
    · simp only [set_status_of_ne hvu, Function.update_of_ne hvu] at h1 h2
      exact ⟨h1, h2⟩

/-- The one who is looked at does not wait any more, and the others are still ahead. -/
theorem NoLost.wake {t u : T} {k : K} {left : List T} {l : L} (h : NoLost Owes Waits s)
    (ht : s.status t = .waking k (u :: left) l) :
    NoLost Owes Waits ((s.wakeOne k u).set t (.waking k left l)) := by
  refine (h.wakeOne k u).pass rfl rfl (by simp [Status.waits]) fun v j m hv => Or.imp_right ?_
  rw [wakeOne_waking ht]
  rintro (⟨rfl, hmem⟩ | ho)
  · refine .inl ⟨rfl, (List.mem_cons.1 hmem).resolve_left ?_⟩
    rintro rfl
    exact wakeOne_chan_ne k v hv.2
  · exact .inr ho

theorem noLost_step (hslots : ∀ u k m, Waiting s u k m → u ∈ M.slots) (h : NoLost Owes Waits s)
    (hc : M.Step s a s')
    (hpays : ∀ t l, a = .step t → s.status t = .inside l → Pays Owes Waits M s t l) :
    NoLost Owes Waits s' := by
  cases hc with
  | call ht => exact h.keep rfl rfl rfl (by simp [Status.waits]) (by simp [ht, Status.Debt])
  | acquire ht => exact h.keep rfl rfl rfl (by simp [Status.waits]) (by simp [ht, Status.Debt])
  | step ht => exact noLost_pays hslots h ht (hpays _ _ rfl ht)
  | woke ht => exact h.keep rfl rfl rfl (by simp [Status.waits]) (by simp [ht, Status.Debt])
  | wake ht => exact h.wake ht
  | release ht =>
    exact h.keep rfl rfl rfl (by simp [ht, Status.waits]) (by simp [ht, Status.Debt])
  | @sleep t l ht =>
    refine h.keep rfl rfl rfl (fun m hm => ?_) (by simp [ht, Status.Debt])
    rw [ht]
    split at hm
    case isTrue => cases hm
    case isFalse => exact hm
  | kill => exact h.keep rfl rfl rfl (fun l hl => waits_woken hl) fun _ _ => debt_woken

end

end Invariants

end Monitor

end CShellXv6
