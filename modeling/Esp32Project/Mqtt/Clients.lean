import Esp32Project.Mqtt.Handles
import Esp32Project.Lib.Reach

/-!
What the calls of modules/mqtt.c do to clients, settings and references. A book
keeps the ids that `mqtt.new` returned and `mqtt.close` has not closed since.
-/

set_option autoImplicit false

namespace Esp32Project.Mqtt
open Esp32Project.Lib

/-- The open ids, with the clients they stand for. -/
abbrev Book := Fin maxMqttNum → Option Nat

def Book.empty : Book := fun _ => none

def Book.client (b : Book) (id : UInt32) : Option Nat :=
  if h : id.toNat < maxMqttNum then b ⟨id.toNat, h⟩ else none

/-- The book after a call of Lua, by what the call answered. -/
def Book.after (b : Book) (s' : Table) : Event → Outcome → Book
  | .new _ _, .id i => Function.update b i (s'.handle i).pClient
  | .close id, .done =>
    if h : id.toNat < maxMqttNum then Function.update b ⟨id.toNat, h⟩ none else b
  | _, _ => b

def Event.target : Event → Option UInt32
  | .on id _ _ | .subscribe id _ _ | .unsubscribe id _ | .publish id _ _ | .close id => some id
  | _ => none

/-- The references taken and not released are those of the open handles, each in one place. -/
structure RefsHeld (s : Table) (b : Book) : Prop where
  exact : ∀ r, r ∈ s.registry ↔ ∃ i m, b i ≠ none ∧ (s.handle i).refs m = some r
  once : ∀ i j m n r, (s.handle i).refs m = some r → (s.handle j).refs n = some r → i = j ∧ m = n
  nodup : s.registry.Nodup

structure StepOk (s : Table) (b : Book) (e : Event) (s' : Table) (out : Outcome) : Prop where
  /-- A call with an id that is not open is refused. -/
  refused : ∀ id, e.target = some id → b.client id = none → (∃ text, out = .error text) ∧ s' = s
  /-- A call acts on the client of its id. -/
  acts : ∀ c q, s'.requests = (c, q) :: s.requests → ∃ id, e.target = some id ∧ b.client id = some c
  /-- A returned id stands for a client that the call started. -/
  started : ∀ i, out = .id i → b i = none ∧
    ∃ c, (s'.handle i).pClient = some c ∧ s'.running = some c ∧ s.running ≠ some c
  /-- `mqtt.new` finds the handles that are not open. -/
  reusable : ∀ i, b.after s' e out i = none → (s'.handle i).pClient = none
  refs : RefsHeld s' (b.after s' e out)

/-- The step is taken, so it uses and frees only what is there, and it keeps to the book. -/
def KeepsBook (p : Table × Book) (e : Event) : Prop :=
  ∃ s' out, step p.1 e = some (s', out) ∧ StepOk p.1 p.2 e s' out

def bookStep (p : Table × Book) (e : Event) : Option (Table × Book) :=
  (step p.1 e).map fun r => (r.1, p.2.after r.1 e r.2)

/-- The steps that keep to the book. -/
def Sheltered (p : Table × Book) : Event → Prop
  | .new args r => args.required = true →
    if args.more = true ∧ args.credentials = false then args.connect = false
    else p.1.xMqttTask = false ∧ r.settings = true ∧ r.client = true ∧ r.ring = true ∧ r.task = true
  | .on id _ _ | .subscribe id _ _ | .unsubscribe id _ | .publish id _ _ => id.toNat < maxMqttNum
  | .close id => maxMqttNum ≤ id.toNat
  | _ => True

/-- At most one id is open, and the tasks run for its client. -/
structure ClientsInv (s : Table) (b : Book) : Prop where
  slot : ∀ i, (s.handle i).pClient = b i
  single : ∀ i j, b i ≠ none → b j ≠ none → i = j
  started : ∀ i c, b i = some c → s.running = some c ∧ s.xMqttTask = true ∧
    ∃ st, s.clients.lookup c = some st ∧ st ∈ s.settings
  task : s.xMqttTask = true → ∃ i c, b i = some c
  running : ∀ c, s.running = some c → ∃ i, b i = some c
  sending : ∀ c, s.sending = some c → s.running = some c

structure RefsInv (s : Table) (b : Book) : Prop where
  held : RefsHeld s b
  bare : ∀ i m, b i = none → (s.handle i).refs m = none
  below : ∀ r ∈ s.registry, r < s.fresh

structure Inv (s : Table) (b : Book) : Prop where
  clients : ClientsInv s b
  refs : RefsInv s b

section

variable {s s' : Table} {b : Book} {e : Event} {o : Outcome}

def Good (s : Table) (b : Book) (e : Event) : Prop :=
  ∃ s' out, step s e = some (s', out) ∧ StepOk s b e s' out ∧ Inv s' (b.after s' e out)

theorem Inv.good_idle (hi : Inv s' b) (hstep : step s e = some (s', o))
    (hafter : b.after s' e o = b) (hrequests : s'.requests = s.requests)
    (hout : ∀ i, o ≠ .id i)
    (hrefused : ∀ id, e.target = some id → b.client id = none →
      (∃ text, o = .error text) ∧ s' = s) : Good s b e := by
  refine ⟨s', o, hstep, ⟨hrefused, fun c q h => ?_, fun i h => absurd h (hout i), fun i h => ?_,
    ?_⟩, ?_⟩
  · rw [hrequests] at h
    exact absurd (congrArg List.length h) (by simp)
  · rw [hi.clients.slot, ← hafter]
    exact h
  · rw [hafter]
    exact hi.refs.held
  · rw [hafter]
    exact hi

theorem after_error (text : String) : b.after s' e (.error text) = b := by
  cases e <;> rfl

theorem Inv.good_error (hi : Inv s b) {text : String}
    (hstep : step s e = some (s, .error text)) : Good s b e :=
  hi.good_idle hstep (after_error text) rfl nofun fun _ _ _ => ⟨⟨text, rfl⟩, rfl⟩

theorem RefsInv.isOpen (hr : RefsInv s b) {i : Fin maxMqttNum} {m : Method} {r : Nat}
    (h : (s.handle i).refs m = some r) : b i ≠ none := fun hnone => by
  simp [hr.bare i m hnone] at h

theorem RefsInv.mem_registry (hr : RefsInv s b) {i : Fin maxMqttNum} {m : Method} {r : Nat}
    (h : (s.handle i).refs m = some r) : r ∈ s.registry :=
  (hr.held.exact r).mpr ⟨i, m, hr.isOpen h, h⟩

theorem RefsInv.of_refs (hr : RefsInv s b)
    (hrefs : ∀ i m, (s'.handle i).refs m = (s.handle i).refs m)
    (hregistry : s'.registry = s.registry) (hfresh : s.fresh ≤ s'.fresh) : RefsInv s' b where
  held := {
    exact := by simpa only [hrefs, hregistry] using hr.held.exact
    once := by simpa only [hrefs] using hr.held.once
    nodup := hregistry ▸ hr.held.nodup }
  bare := by simpa only [hrefs] using hr.bare
  below := fun r h => Nat.lt_of_lt_of_le (hr.below r (hregistry ▸ h)) hfresh

/-! The tasks. -/

theorem Inv.setSending (hi : Inv s b) {x : Option Nat} (hx : ∀ c, x = some c → s.running = some c) :
    Inv { s with sending := x } b where
  clients := { hi.clients with sending := hx }
  refs := hi.refs.of_refs (fun _ _ => rfl) rfl (Nat.le_refl _)

theorem Inv.client_live (hi : Inv s b) {c : Nat} (h : s.running = some c) :
    ∃ st, s.useClient c = some st ∧ st ∈ s.settings := by
  obtain ⟨i, hb⟩ := hi.clients.running c h
  exact (hi.clients.started i c hb).2.2

theorem Inv.callback_eq (hi : Inv s b) {c : Nat} (h : s.running = some c) (m : Method) :
    callback s m c = some (s, .done) := by
  obtain ⟨st, hst, hmem⟩ := hi.client_live h
  simp only [callback, hst, Option.bind_eq_bind, Option.bind_some, if_pos hmem]
  split
  next => rfl
  next r hr =>
    obtain ⟨i, -, hi'⟩ := Option.bind_eq_some_iff.mp hr
    rw [if_pos (hi.refs.mem_registry hi')]

theorem good_connected (hi : Inv s b) : Good s b .connected := by
  cases hr : s.running with
  | none =>
    exact hi.good_idle (o := .done) (by simp [step, hr]) rfl rfl nofun nofun
  | some c =>
    have hi' : Inv { s with sending := some c } b :=
      hi.setSending fun c' h => by rw [hr]; exact h
    have hstep : step s .connected = callback { s with sending := some c } .connect c := by
      simp only [step, hr]
    exact hi'.good_idle (hstep.trans (hi'.callback_eq hr .connect)) rfl rfl nofun nofun

theorem good_disconnected (hi : Inv s b) : Good s b .disconnected := by
  cases hr : s.running with
  | none => exact hi.good_idle (o := .done) (by simp [step, hr]) rfl rfl nofun nofun
  | some c =>
    have hi' : Inv { s with sending := none } b := hi.setSending nofun
    exact hi'.good_idle (o := .done) (by simp [step, hr]) rfl rfl nofun nofun

theorem good_callback (hi : Inv s b) (m : Method) : Good s b (.callback m) := by
  refine hi.good_idle (o := .done) ?_ rfl rfl nofun nofun
  cases hr : s.running with
  | none => simp [step, hr]
  | some c =>
    simp only [step, hr]
    exact hi.callback_eq hr m

theorem good_sendingRound (hi : Inv s b) : Good s b .sendingRound := by
  refine hi.good_idle (o := .done) ?_ rfl rfl nofun nofun
  cases hs : s.sending with
  | none => simp [step, hs]
  | some c =>
    obtain ⟨st, hst, hmem⟩ := hi.client_live (hi.clients.sending c hs)
    simp [step, hs, hst, hmem]

/-! The calls that begin with the test of the handle. -/

theorem Inv.client_of (hi : Inv s b) {id : UInt32} (h : id.toNat < maxMqttNum) :
    (s.handle ⟨id.toNat, h⟩).pClient = b.client id := by
  rw [hi.clients.slot, Book.client, dif_pos h]

/-- With an id within the table, a call is refused or made for the client of its id. -/
theorem Inv.good_withClient (hi : Inv s b) {id : UInt32} (h : id.toNat < maxMqttNum)
    {call : Fin maxMqttNum → Nat → Option (Table × Outcome)}
    (hstep : step s e = withClient s id call)
    (hcall : ∀ c, b.client id = some c → step s e = call ⟨id.toNat, h⟩ c → Good s b e) :
    Good s b e := by
  rw [withClient, dif_pos h, hi.client_of h] at hstep
  cases hc : b.client id with
  | none => exact hi.good_error (by rw [hstep, hc])
  | some c => exact hcall c hc (by rw [hstep, hc])

theorem Inv.addRequest (hi : Inv s b) (p : Nat × Request) :
    Inv { s with requests := p :: s.requests } b where
  clients := { hi.clients with }
  refs := hi.refs.of_refs (fun _ _ => rfl) rfl (Nat.le_refl _)

theorem Book.client_some {id : UInt32} {c : Nat} (h : b.client id = some c) :
    ∃ i, b i = some c := by
  rw [Book.client] at h
  split at h
  next hlt => exact ⟨_, h⟩
  next => cases h

theorem Inv.request_eq (hi : Inv s b) {id : UInt32} {c : Nat} (hc : b.client id = some c)
    (q : Request) : request s c q = some ({ s with requests := (c, q) :: s.requests }, .done) := by
  obtain ⟨i, hb⟩ := Book.client_some hc
  obtain ⟨-, -, st, hst, -⟩ := hi.clients.started i c hb
  simp [request, Table.useClient, hst]

theorem Inv.good_request (hi : Inv s b) {id : UInt32} {c : Nat} {q : Request}
    (hc : b.client id = some c) (htarget : e.target = some id)
    (hstep : step s e = request s c q) (hafter : ∀ s' : Table, b.after s' e .done = b) :
    Good s b e := by
  have hi' := hi.addRequest (c, q)
  refine ⟨_, .done, hstep.trans (hi.request_eq hc q), ⟨fun id' ht hnone => ?_, fun c' q' h => ?_,
    nofun, fun i h => ?_, ?_⟩, ?_⟩
  · cases htarget.symm.trans ht
    rw [hc] at hnone
    cases hnone
  · cases h
    exact ⟨id, htarget, hc⟩
  · rw [hi'.clients.slot, ← hafter]
    exact h
  · rw [hafter]
    exact hi'.refs.held
  · rw [hafter]
    exact hi'

theorem good_subscribe (hi : Inv s b) {id : UInt32} (h : id.toNat < maxMqttNum)
    (topic : Option (List UInt8)) (qos : UInt32) : Good s b (.subscribe id topic qos) := by
  refine hi.good_withClient h (lmqttSubscribe.eq_def ..) fun c hc hcall => ?_
  cases topic with
  | none => exact hi.good_error hcall
  | some topic =>
    by_cases hqos : qos = 0 ∨ qos = 1 ∨ qos = 2
    · exact hi.good_request hc rfl (hcall.trans (if_pos hqos)) fun _ => rfl
    · exact hi.good_error (hcall.trans (if_neg hqos))

theorem good_unsubscribe (hi : Inv s b) {id : UInt32} (h : id.toNat < maxMqttNum)
    (topic : Option (List UInt8)) : Good s b (.unsubscribe id topic) := by
  refine hi.good_withClient h (lmqttUnsubscribe.eq_def ..) fun c hc hcall => ?_
  cases topic with
  | none => exact hi.good_error hcall
  | some topic => exact hi.good_request hc rfl hcall fun _ => rfl

theorem good_publish (hi : Inv s b) {id : UInt32} (h : id.toNat < maxMqttNum)
    (topic data : Option (List UInt8)) : Good s b (.publish id topic data) := by
  refine hi.good_withClient h (lmqttPublish.eq_def ..) fun c hc hcall => ?_
  cases topic with
  | none => exact hi.good_error hcall
  | some topic =>
    cases data with
    | none => exact hi.good_error hcall
    | some data => exact hi.good_request hc rfl hcall fun _ => rfl

/-! A function registered anew. -/

theorem setRef_pClient (i j : Fin maxMqttNum) (m : Method) (r : Option Nat) :
    ((s.setRef i m r).handle j).pClient = (s.handle j).pClient := by
  rw [Table.setRef, Table.setSlot]
  by_cases h : j = i
  · subst h
    simp
  · simp [h]

theorem setRef_refs (i j : Fin maxMqttNum) (m n : Method) (r : Option Nat) :
    ((s.setRef i m r).handle j).refs n = if j = i ∧ n = m then r else (s.handle j).refs n := by
  rw [Table.setRef, Table.setSlot]
  by_cases h : j = i
  · subst h
    by_cases hn : n = m
    · subst hn
      simp
    · simp [hn]
  · simp [h]

theorem ClientsInv.setRef (hc : ClientsInv s b) (i : Fin maxMqttNum) (m : Method)
    (r : Option Nat) : ClientsInv (s.setRef i m r) b :=
  { hc with slot := fun j => by rw [setRef_pClient]; exact hc.slot j }

theorem RefsInv.dropRef (hr : RefsInv s b) (i : Fin maxMqttNum) (m : Method) {r : Nat}
    (h : (s.handle i).refs m = some r) :
    RefsInv ({ s with registry := s.registry.erase r }.setRef i m none) b := by
  refine { held := ⟨fun q => ?_, fun j k n o q hj hk => ?_, hr.held.nodup.erase r⟩
           bare := fun j n hj => ?_
           below := fun q hq => hr.below q (List.mem_of_mem_erase hq) }
  · change q ∈ s.registry.erase r ↔ _
    rw [hr.held.nodup.mem_erase_iff, hr.held.exact]
    simp only [setRef_refs]
    constructor
    · rintro ⟨hne, j, n, hj, hq⟩
      refine ⟨j, n, hj, ?_⟩
      rw [if_neg, hq]
      rintro ⟨rfl, rfl⟩
      exact hne (Option.some.inj (hq.symm.trans h))
    · rintro ⟨j, n, hj, hq⟩
      split at hq
      · cases hq
      next hother =>
        refine ⟨?_, j, n, hj, hq⟩
        rintro rfl
        exact hother (hr.held.once j i n m q hq h)
  · simp only [setRef_refs] at hj hk
    split at hj
    · cases hj
    · split at hk
      · cases hk
      · exact hr.held.once j k n o q hj hk
  · rw [setRef_refs]
    split
    · rfl
    · exact hr.bare j n hj

theorem RefsInv.takeRef (hr : RefsInv s b) {i : Fin maxMqttNum} (hopen : b i ≠ none) {m : Method}
    (h : (s.handle i).refs m = none) : RefsInv (s.takeRef i m) b := by
  have hfresh : s.fresh ∉ s.registry := fun h => absurd (hr.below _ h) (Nat.lt_irrefl _)
  have hrefs (j : Fin maxMqttNum) (n : Method) : ((s.takeRef i m).handle j).refs n =
      if j = i ∧ n = m then some s.fresh else (s.handle j).refs n := by
    rw [Table.takeRef, setRef_refs]
  refine { held := ⟨fun q => ?_, fun j k n o q hj hk => ?_, List.nodup_cons.mpr
             ⟨hfresh, hr.held.nodup⟩⟩
           bare := fun j n hj => ?_
           below := fun q hq => ?_ }
  · change q ∈ s.fresh :: s.registry ↔ _
    rw [List.mem_cons, hr.held.exact]
    simp only [hrefs]
    constructor
    · rintro (rfl | ⟨j, n, hj, hq⟩)
      · exact ⟨i, m, hopen, if_pos ⟨rfl, rfl⟩⟩
      · refine ⟨j, n, hj, ?_⟩
        rw [if_neg, hq]
        rintro ⟨rfl, rfl⟩
        rw [h] at hq
        cases hq
    · rintro ⟨j, n, hj, hq⟩
      split at hq
      · exact .inl (Option.some.inj hq).symm
      · exact .inr ⟨j, n, hj, hq⟩
  · have old {j : Fin maxMqttNum} {n : Method} {q : Nat} (h : (s.handle j).refs n = some q) :
        q ≠ s.fresh := by
      rintro rfl
      exact hfresh (hr.mem_registry h)
    rw [hrefs] at hj hk
    split at hj <;> split at hk
    next h₁ h₂ => exact ⟨h₁.1.trans h₂.1.symm, h₁.2.trans h₂.2.symm⟩
    next => exact absurd (Option.some.inj hj).symm (old hk)
    next => exact absurd (Option.some.inj hk).symm (old hj)
    next => exact hr.held.once j k n o q hj hk
  · rw [hrefs, if_neg fun h : j = i ∧ n = m => hopen (h.1 ▸ hj)]
    exact hr.bare j n hj
  · change q < s.fresh + 1
    rcases List.mem_cons.mp hq with rfl | hmem
    · exact Nat.lt_succ_self _
    · exact Nat.lt_succ_of_lt (hr.below q hmem)

theorem Inv.dropRef (hi : Inv s b) (i : Fin maxMqttNum) (m : Method) :
    ∃ t, s.dropRef i m = some t ∧ Inv t b ∧ (t.handle i).refs m = none := by
  cases hr : (s.handle i).refs m with
  | none => exact ⟨s, by rw [Table.dropRef, hr], hi, hr⟩
  | some r =>
    refine ⟨{ s with registry := s.registry.erase r }.setRef i m none, ?_, ⟨?_, ?_⟩, ?_⟩
    · simp only [Table.dropRef, hr, if_pos (hi.refs.mem_registry hr)]
    · have hc : ClientsInv { s with registry := s.registry.erase r } b := { hi.clients with }
      exact hc.setRef i m none
    · exact hi.refs.dropRef i m hr
    · rw [setRef_refs]
      simp

theorem Inv.takeRef (hi : Inv s b) {i : Fin maxMqttNum} (hopen : b i ≠ none) {m : Method}
    (hr : (s.handle i).refs m = none) : Inv (s.takeRef i m) b := by
  have hc : ClientsInv { s with registry := s.fresh :: s.registry, fresh := s.fresh + 1 } b :=
    { hi.clients with }
  exact ⟨hc.setRef i m _, hi.refs.takeRef hopen hr⟩

theorem dropRef_requests {i : Fin maxMqttNum} {m : Method} {t : Table}
    (h : s.dropRef i m = some t) : t.requests = s.requests := by
  rw [Table.dropRef] at h
  split at h
  · cases h
    rfl
  · split at h
    · cases h
      rfl
    · cases h

theorem good_on (hi : Inv s b) {id : UInt32} (h : id.toNat < maxMqttNum)
    (method : Option String) (isFunction : Bool) : Good s b (.on id method isFunction) := by
  refine hi.good_withClient h (lmqttOn.eq_def ..) fun c hc hcall => ?_
  cases method with
  | none => exact hi.good_error hcall
  | some name =>
    cases isFunction with
    | false => exact hi.good_error hcall
    | true =>
      simp only [Bool.true_eq_false, if_false] at hcall
      cases hm : methodOf name with
      | none => exact hi.good_error (by rw [hcall, hm])
      | some m =>
        have hopen : b ⟨id.toNat, h⟩ ≠ none := by
          rw [Book.client, dif_pos h] at hc
          simp [hc]
        obtain ⟨t, ht, hdropped, hnone⟩ := hi.dropRef ⟨id.toNat, h⟩ m
        refine (hdropped.takeRef hopen hnone).good_idle (o := .done) ?_ rfl ?_ nofun
          fun id' ht hnone => ?_
        · simp only [hcall, hm, ht, Option.bind_eq_bind, Option.bind_some]
          rfl
        · change t.requests = s.requests
          exact dropRef_requests ht
        · cases ht
          rw [hc] at hnone
          cases hnone

/-! A new client. -/

theorem Inv.findFree (hi : Inv s b) : ∃ i, findFree s = some i ∧ b i = none := by
  cases hf : Mqtt.findFree s with
  | some i =>
    have := List.find?_some hf
    rw [hi.clients.slot, Option.isNone_iff_eq_none] at this
    exact ⟨i, rfl, this⟩
  | none =>
    have hall (i : Fin maxMqttNum) : b i ≠ none := by
      have := List.find?_eq_none.mp hf i (List.mem_finRange i)
      rwa [hi.clients.slot, Option.isNone_iff_eq_none] at this
    exact absurd (hi.clients.single ⟨0, by decide⟩ ⟨1, by decide⟩ (hall _) (hall _)) (by decide)

theorem Inv.reset (hi : Inv s b) {i : Fin maxMqttNum} (h : b i = none) :
    s.setSlot i { s.handle i with refs := fun _ => none } = s := by
  have hslot : ({ s.handle i with refs := fun _ => none } : Slot) = s.handle i := by
    have : (s.handle i).refs = fun _ => none := funext fun m => hi.refs.bare i m h
    rw [← this]
  rw [hslot, Table.setSlot, Function.update_eq_self]

def Table.connectRef (s : Table) (i : Fin maxMqttNum) (connect : Bool) : Table :=
  if connect then s.takeRef i .connect else s

def Table.addSettings (s : Table) : Table :=
  { s with settings := s.fresh :: s.settings, fresh := s.fresh + 1 }

theorem Inv.new_refused (hi : Inv s b) {args : NewArgs} (hargs : args.required = true)
    (hbad : args.more = true ∧ args.credentials = false) (r : Resources) :
    ∃ i, b i = none ∧ step s (.new args r) =
      some (s.connectRef i args.connect, .error "bad argument") := by
  obtain ⟨i, hfree, hnone⟩ := hi.findFree
  refine ⟨i, hnone, ?_⟩
  rw [step, lmqttNew, if_neg (by simp [hargs]), hfree]
  simp only [hi.reset hnone]
  exact if_pos hbad

theorem Inv.new_starts (hi : Inv s b) {args : NewArgs} (hargs : args.required = true)
    (hgood : ¬(args.more = true ∧ args.credentials = false)) (r : Resources) :
    ∃ i, b i = none ∧ step s (.new args r) =
      if r.settings = false then none else
        let s := s.connectRef i args.connect
        let (client, s) := mqttStart s.addSettings s.fresh r
        some (s.setSlot i { s.handle i with pClient := client }, .id i) := by
  obtain ⟨i, hfree, hnone⟩ := hi.findFree
  refine ⟨i, hnone, ?_⟩
  rw [step, lmqttNew, if_neg (by simp [hargs]), hfree]
  simp only [hi.reset hnone]
  exact if_neg hgood

theorem mqttStart_started (s : Table) (st : Nat) {r : Resources} (h : s.xMqttTask = false)
    (hclient : r.client = true) (hring : r.ring = true) (htask : r.task = true) :
    mqttStart s st r = (some s.fresh,
      { s with clients := (s.fresh, st) :: s.clients, fresh := s.fresh + 1, xMqttTask := true,
               running := some s.fresh }) := by
  simp [mqttStart, h, hclient, hring, htask]

/-- A client is returned only after its task was made, or the task that runs is another's. -/
theorem mqttStart_some {st c : Nat} {r : Resources} {t : Table}
    (h : mqttStart s st r = (some c, t)) : t.running = s.running ∨
      s.xMqttTask = false ∧ r.client = true ∧ r.ring = true ∧ r.task = true := by
  obtain ⟨_, client, ring, task⟩ := r
  rw [mqttStart] at h
  cases hx : s.xMqttTask <;> cases client <;> cases ring <;> cases task <;> simp [hx] at h ⊢
  simp [← h.2]

theorem RefsInv.openSlot (hr : RefsInv s b) {i : Fin maxMqttNum} (h : b i = none) (c : Nat) :
    RefsInv s (Function.update b i (some c)) := by
  have hstill {j : Fin maxMqttNum} (hj : b j ≠ none) :
      Function.update b i (some c) j ≠ none := by
    rw [Function.update_of_ne (fun heq : j = i => hj (heq ▸ h))]
    exact hj
  refine { held := ⟨fun r => ?_, hr.held.once, hr.held.nodup⟩
           bare := fun j m hj => hr.bare j m ?_
           below := hr.below }
  · rw [hr.held.exact]
    constructor
    · rintro ⟨j, m, hj, hm⟩
      exact ⟨j, m, hstill hj, hm⟩
    · rintro ⟨j, m, -, hm⟩
      exact ⟨j, m, hr.isOpen hm, hm⟩
  · by_contra hne
    exact hstill hne hj

theorem Inv.connectRef (hi : Inv s b) {i : Fin maxMqttNum} (h : b i = none) (c : Nat)
    (connect : Bool) : RefsInv (s.connectRef i connect) (Function.update b i (some c)) := by
  have hr := hi.refs.openSlot h c
  rw [Table.connectRef]
  split
  · exact hr.takeRef (by simp) (hi.refs.bare i .connect h)
  · exact hr

theorem connectRef_frame (s : Table) (i : Fin maxMqttNum) (connect : Bool) :
    (s.connectRef i connect).xMqttTask = s.xMqttTask ∧
      (s.connectRef i connect).running = s.running ∧
      (s.connectRef i connect).sending = s.sending ∧
      (s.connectRef i connect).requests = s.requests ∧
      ∀ j, ((s.connectRef i connect).handle j).pClient = (s.handle j).pClient := by
  rw [Table.connectRef]
  split
  · refine ⟨rfl, rfl, rfl, rfl, fun j => ?_⟩
    rw [Table.takeRef, setRef_pClient]
  · exact ⟨rfl, rfl, rfl, rfl, fun _ => rfl⟩

def Table.started (t : Table) (i : Fin maxMqttNum) : Table :=
  { t with
    handle := Function.update t.handle i { t.handle i with pClient := some (t.fresh + 1) }
    settings := t.fresh :: t.settings
    clients := (t.fresh + 1, t.fresh) :: t.clients
    xMqttTask := true
    running := some (t.fresh + 1)
    fresh := t.fresh + 2 }

theorem Inv.closed (hi : Inv s b) (h : s.xMqttTask = false) (i : Fin maxMqttNum) : b i = none := by
  cases hb : b i with
  | none => rfl
  | some c =>
    have := (hi.clients.started i c hb).2.1
    rw [h] at this
    cases this

theorem Inv.good_started (hi : Inv s b) {t : Table} {i : Fin maxMqttNum}
    (hidle : s.xMqttTask = false) {args : NewArgs} {r : Resources}
    (hstep : step s (.new args r) = some (t.started i, .id i))
    (hsending : t.sending = s.sending) (hrequests : t.requests = s.requests)
    (hpClient : ∀ j, (t.handle j).pClient = (s.handle j).pClient)
    (hrefs : RefsInv t (Function.update b i (some (t.fresh + 1)))) : Good s b (.new args r) := by
  have hclosed := hi.closed hidle
  have hbook : b.after (t.started i) (.new args r) (.id i) =
      Function.update b i (some (t.fresh + 1)) := by
    simp [Book.after, Table.started]
  have hnot (c : Nat) : s.running ≠ some c := fun h => by
    obtain ⟨j, hj⟩ := hi.clients.running c h
    rw [hclosed j] at hj
    cases hj
  have hopen {j : Fin maxMqttNum} {c : Nat}
      (h : Function.update b i (some (t.fresh + 1)) j = some c) : j = i ∧ c = t.fresh + 1 := by
    by_cases hj : j = i
    · subst hj
      rw [Function.update_self] at h
      exact ⟨rfl, (Option.some.inj h).symm⟩
    · rw [Function.update_of_ne hj, hclosed j] at h
      cases h
  have hclients : ClientsInv (t.started i) (Function.update b i (some (t.fresh + 1))) := by
    refine { slot := fun j => ?_
             single := fun j k hj hk => ?_
             started := fun j c h => ?_
             task := fun _ => ⟨i, t.fresh + 1, Function.update_self ..⟩
             running := fun c h => ?_
             sending := fun c h => ?_ }
    · by_cases hj : j = i
      · subst hj
        simp [Table.started]
      · simp [Table.started, hj, hpClient, hi.clients.slot]
    · obtain ⟨c, hc⟩ := Option.ne_none_iff_exists'.mp hj
      obtain ⟨d, hd⟩ := Option.ne_none_iff_exists'.mp hk
      exact (hopen hc).1.trans (hopen hd).1.symm
    · obtain ⟨rfl, rfl⟩ := hopen h
      exact ⟨rfl, rfl, t.fresh, by simp [Table.started], List.mem_cons_self⟩
    · cases h
      exact ⟨i, Function.update_self ..⟩
    · change t.sending = some c at h
      rw [hsending] at h
      exact absurd (hi.clients.sending c h) (hnot c)
  have hrefs' : RefsInv (t.started i) (Function.update b i (some (t.fresh + 1))) := by
    refine hrefs.of_refs (fun j m => ?_) rfl (Nat.le_add_right _ 2)
    by_cases hj : j = i
    · subst hj
      simp [Table.started]
    · simp [Table.started, hj]
  refine ⟨t.started i, .id i, hstep, ⟨nofun, fun c q h => ?_, fun j h => ?_, fun j h => ?_, ?_⟩, ?_⟩
  · change t.requests = _ at h
    rw [hrequests] at h
    exact absurd (congrArg List.length h) (by simp)
  · cases h
    refine ⟨hclosed i, t.fresh + 1, ?_, rfl, hnot _⟩
    simp [Table.started]
  · rw [hbook] at h
    rw [hclients.slot, h]
  · rw [hbook]
    exact hrefs'.held
  · rw [hbook]
    exact ⟨hclients, hrefs'⟩

theorem good_new (hi : Inv s b) {args : NewArgs} {r : Resources}
    (h : Sheltered (s, b) (.new args r)) : Good s b (.new args r) := by
  cases hargs : args.required with
  | false => exact hi.good_error (show lmqttNew s args r = _ by rw [lmqttNew, if_pos hargs])
  | true =>
    specialize h hargs
    split at h
    next hbad =>
      obtain ⟨i, -, hnew⟩ := hi.new_refused hargs hbad r
      rw [Table.connectRef, h] at hnew
      exact hi.good_error hnew
    next hgood =>
      obtain ⟨hidle, hsettings, hclient, hring, htask⟩ := h
      obtain ⟨i, hnone, hnew⟩ := hi.new_starts hargs hgood r
      obtain ⟨hx, hrunning, hsending, hrequests, hpClient⟩ :=
        connectRef_frame s i args.connect
      have hrefs := hi.connectRef hnone ((s.connectRef i args.connect).fresh + 1) args.connect
      generalize s.connectRef i args.connect = t
        at hnew hx hrunning hsending hrequests hpClient hrefs
      rw [if_neg (by simp [hsettings])] at hnew
      simp only [mqttStart_started t.addSettings t.fresh (hx.trans hidle) hclient hring htask]
        at hnew
      exact hi.good_started hidle hnew hsending hrequests hpClient hrefs

theorem sheltered_new (hi : Inv s b) {args : NewArgs} {r : Resources}
    (h : KeepsBook (s, b) (.new args r)) : Sheltered (s, b) (.new args r) := by
  intro hargs
  obtain ⟨s', o, hstep, hok⟩ := h
  split
  next hbad =>
    obtain ⟨i, hnone, hnew⟩ := hi.new_refused hargs hbad r
    cases hnew.symm.trans hstep
    by_contra hconnect
    rw [Bool.not_eq_false] at hconnect
    have hheld := hok.refs
    rw [after_error, Table.connectRef, hconnect, if_pos rfl] at hheld
    obtain ⟨j, m, hj, hm⟩ := (hheld.exact s.fresh).mp List.mem_cons_self
    rw [Table.takeRef, setRef_refs, if_neg fun h : j = i ∧ m = .connect => hj (h.1 ▸ hnone)] at hm
    exact absurd (hi.refs.below _ (hi.refs.mem_registry hm)) (Nat.lt_irrefl _)
  next hgood =>
    obtain ⟨i, hnone, hnew⟩ := hi.new_starts hargs hgood r
    rw [hnew] at hstep
    split at hstep
    · cases hstep
    next hsettings =>
      obtain ⟨hx, hrunning, -⟩ := connectRef_frame s i args.connect
      cases hm : mqttStart (s.connectRef i args.connect).addSettings
        (s.connectRef i args.connect).fresh r with
      | mk client t =>
        simp only [hm] at hstep
        cases hstep
        obtain ⟨-, c, hp, hrun, hne⟩ := hok.started i rfl
        simp only [Table.setSlot, Function.update_self] at hp hrun
        subst hp
        rcases mqttStart_some hm with hsame | ⟨hidle, hclient, hring, htask⟩
        · rw [hsame] at hrun
          exact absurd (hrunning.symm.trans hrun) hne
        · rw [Bool.not_eq_false] at hsettings
          exact ⟨hx.symm.trans hidle, hsettings, hclient, hring, htask⟩

/-! A close of a handle in the table. -/

theorem dropRef_pClient {i j : Fin maxMqttNum} {m : Method} {t : Table}
    (h : s.dropRef i m = some t) : (t.handle j).pClient = (s.handle j).pClient := by
  rw [Table.dropRef] at h
  split at h
  · cases h
    rfl
  · split at h
    · cases h
      rw [setRef_pClient]
    · cases h

theorem dropRefs_pClient {i j : Fin maxMqttNum} {ms : List Method} {t : Table}
    (h : dropRefs i s ms = some t) : (t.handle j).pClient = (s.handle j).pClient := by
  induction ms generalizing s with
  | nil =>
    cases h
    rfl
  | cons m ms ih =>
    obtain ⟨u, hu, hrest⟩ := Option.bind_eq_some_iff.mp h
    rw [ih hrest, dropRef_pClient hu]

theorem close_pClient {id : UInt32} (h : id.toNat < maxMqttNum)
    (hstep : step s (.close id) = some (s', o)) :
    o = .done ∧ (s'.handle ⟨id.toNat, h⟩).pClient = (s.handle ⟨id.toNat, h⟩).pClient := by
  rw [step, lmqttClose, dif_pos h] at hstep
  split at hstep
  · cases hstep
    exact ⟨rfl, rfl⟩
  · obtain ⟨t, ht, hrest⟩ := Option.bind_eq_some_iff.mp hstep
    obtain ⟨settings, -, hfree⟩ := Option.bind_eq_some_iff.mp hrest
    split at hfree
    · obtain ⟨u, hu, hlast⟩ := Option.bind_eq_some_iff.mp hfree
      cases hlast
      refine ⟨rfl, ?_⟩
      rw [← dropRefs_pClient ht]
      obtain ⟨_, -, hend⟩ := Option.bind_eq_some_iff.mp hu
      split at hend
      · cases hend
        rfl
      · cases hend
    · cases hfree

theorem sheltered_close (hi : Inv s b) {id : UInt32} (h : KeepsBook (s, b) (.close id)) :
    Sheltered (s, b) (.close id) := by
  obtain ⟨s', o, hstep, hok⟩ := h
  refine Nat.le_of_not_lt fun hlt => ?_
  obtain ⟨rfl, hsame⟩ := close_pClient hlt hstep
  cases hc : b.client id with
  | none =>
    obtain ⟨⟨text, htext⟩, -⟩ := hok.refused id rfl hc
    cases htext
  | some c =>
    have hfree := hok.reusable ⟨id.toNat, hlt⟩
      (by rw [Book.after, dif_pos hlt, Function.update_self])
    rw [hsame, hi.client_of hlt, hc] at hfree
    cases hfree

/-! Runs. -/

theorem Inv.good (hi : Inv s b) (h : Sheltered (s, b) e) : Good s b e := by
  cases e with
  | new args r => exact good_new hi h
  | on id method isFunction => exact good_on hi h method isFunction
  | subscribe id topic qos => exact good_subscribe hi h topic qos
  | unsubscribe id topic => exact good_unsubscribe hi h topic
  | publish id topic data => exact good_publish hi h topic data
  | close id =>
    exact hi.good_error (show lmqttClose s id = _ from dif_neg (Nat.not_lt.mpr h))
  | connected => exact good_connected hi
  | disconnected => exact good_disconnected hi
  | callback m => exact good_callback hi m
  | sendingRound => exact good_sendingRound hi

theorem lt_of_withClient {id : UInt32} {call : Fin maxMqttNum → Nat → Option (Table × Outcome)}
    (h : KeepsBook (s, b) e) (hcall : step s e = withClient s id call) :
    id.toNat < maxMqttNum := by
  obtain ⟨s', o, hstep, -⟩ := h
  by_contra hlt
  rw [hcall, withClient, dif_neg hlt] at hstep
  cases hstep

theorem keepsBook_iff (hi : Inv s b) : KeepsBook (s, b) e ↔ Sheltered (s, b) e := by
  constructor
  · intro h
    cases e with
    | new args r => exact sheltered_new hi h
    | on id method isFunction => exact lt_of_withClient h (lmqttOn.eq_def ..)
    | subscribe id topic qos => exact lt_of_withClient h (lmqttSubscribe.eq_def ..)
    | unsubscribe id topic => exact lt_of_withClient h (lmqttUnsubscribe.eq_def ..)
    | publish id topic data => exact lt_of_withClient h (lmqttPublish.eq_def ..)
    | close id => exact sheltered_close hi h
    | connected => trivial
    | disconnected => trivial
    | callback m => trivial
    | sendingRound => trivial
  · intro h
    obtain ⟨s', o, hstep, hok, -⟩ := hi.good h
    exact ⟨s', o, hstep, hok⟩

theorem inv_bookStep (hi : Inv s b) (h : Sheltered (s, b) e) {p : Table × Book}
    (hstep : bookStep (s, b) e = some p) : Inv p.1 p.2 := by
  obtain ⟨s', o, hs, -, hi'⟩ := hi.good h
  rw [bookStep, hs] at hstep
  cases hstep
  exact hi'

theorem inv_start : Inv Table.start Book.empty where
  clients := ⟨fun _ => rfl, fun _ _ h => absurd rfl h, nofun, nofun, nofun, nofun⟩
  refs := ⟨⟨fun _ => ⟨nofun, fun ⟨_, _, h, _⟩ => absurd rfl h⟩, nofun, List.nodup_nil⟩,
    fun _ _ _ => rfl, nofun⟩

end

/-- Every step of a run keeps to the book exactly if every step is sheltered. -/
theorem keepsBook_along_iff (run : List Event) :
    Along bookStep KeepsBook (Table.start, Book.empty) run ↔
      Along bookStep Sheltered (Table.start, Book.empty) run :=
  along_iff (fun p => Inv p.1 p.2) (fun _ _ hi => keepsBook_iff hi)
    (fun _ _ _ hi h hstep => inv_bookStep hi h hstep) inv_start run

def closedRun : List Event :=
  [.new ⟨true, false, false, false⟩ ⟨true, true, true, true⟩, .close ⟨0⟩,
    .publish ⟨0⟩ (some []) (some [])]

/-- The close leaves the handle taken, and the call after it goes to the freed client. -/
theorem client_used_after_close :
    ¬Along bookStep KeepsBook (Table.start, Book.empty) closedRun := by
  rintro ⟨-, hopened⟩
  obtain ⟨-, hclosed⟩ := hopened _ rfl
  obtain ⟨⟨s', o, hstep, -⟩, -⟩ := hclosed _ rfl
  exact nomatch hstep

end Esp32Project.Mqtt
