import Esp32Project.Lib.Reach
import Esp32Project.Net.Machine
import Mathlib.Data.List.Perm.Basic

/-!
`net.dns.resolve` in modules/net.c: who has the record and the registry
reference of a call, from the call until its callback has returned. A call has
at most one of each, and both go by the number of the record.
-/

set_option autoImplicit false

namespace Esp32Project.Net.Resolve
open Esp32Project.Lib

/-- `lnet_event` for DNSSTATIC. `cb` is what the reference stands for. -/
structure LnetEvent where
  record : Nat
  cb : Fn
  resolvedIp : Addr
  deriving DecidableEq, Repr

/-- What lwIP has, what was posted, and the record whose callback is in Lua; after these
what happened so far, with the record where there is one. -/
structure State where
  nextRecord : Nat
  pending : List LnetEvent
  queue : List LnetEvent
  running : Option Nat
  /-- An error that nobody catches ends in `panic`, which never returns. -/
  halted : Bool
  refs : List Nat
  freed : List Nat
  released : List Nat
  runs : List LnetEvent
  unposted : List Nat
  raised : List (Option Nat × String)

namespace State

def init : State := ⟨0, [], [], none, false, [], [], [], [], [], []⟩

def raise (s : State) (record : Option Nat) (text : String) : State :=
  { s with raised := s.raised ++ [(record, text)] }

def free (s : State) (record : Nat) : State := { s with freed := s.freed ++ [record] }

/-- An error outside of `lua_pcall`. -/
def panic (s : State) (record : Nat) (text : String) : State :=
  { s.raise (some record) text with halted := true }

def awaited (s : State) : List Nat :=
  s.pending.map LnetEvent.record ++ s.queue.map LnetEvent.record

def held (s : State) : List Nat := s.awaited ++ s.running.toList

/-- No error was raised for the record, and its event was posted. -/
def Succeeded (s : State) (record : Nat) : Prop :=
  (∀ text, (some record, text) ∉ s.raised) ∧ record ∉ s.unposted

end State

def netDnsStaticCb (s : State) (ev : LnetEvent) (ipaddr : Option Addr) (posted : Bool) : State :=
  let ev := { ev with resolvedIp := ipaddr.getD ipAddrAny }
  if posted then { s with queue := s.queue ++ [ev] }
  else { s with unposted := s.unposted ++ [ev.record] }.free ev.record

/-- What the call meets: whether `malloc`, `luaL_ref` and `task_post_medium` have room, and
what `dns_gethostbyname` answers and leaves in the record. -/
structure Outcome where
  alloc : Bool
  room : Bool
  err : Err
  addr : Addr
  posted : Bool
  deriving DecidableEq, Repr

/-- `net_dns_static` from `dns_gethostbyname` on. -/
def netDnsStaticLookup (s : State) (ev : LnetEvent) (a : Outcome) : State :=
  if a.err = .ok then netDnsStaticCb s ev (some a.addr) a.posted
  else if a.err = .inProgress then { s with pending := s.pending ++ [ev] }
  else
    match lwipLuaCheckerr a.err with
    | some text => s.raise (some ev.record) text
    | none => s.free ev.record

/-- `net_dns_static`. An argument is a value of the right type or the name of another type.
The test of the domain's length needs a domain that is NULL, and there is none. -/
def netDnsStatic (s : State) (domain : Except String String) (fn : Except String Fn)
    (a : Outcome) : State :=
  match domain with
  | .error got => s.raise none ("string expected, got " ++ got)
  | .ok _ =>
    if !a.alloc then s.raise none "out of memory"
    else
      let record := s.nextRecord
      let s := { s with nextRecord := record + 1 }
      match fn with
      | .error got => s.raise (some record) ("function or lightfunction expected, got " ++ got)
      | .ok cb =>
        if !a.room then s.raise (some record) "not enough memory"
        else
          netDnsStaticLookup { s with refs := s.refs ++ [record] } ⟨record, cb, a.addr⟩ a

/-- `ldnsstatic_cb` up to the call of the callback. `room` is whether `lua_pushstring` has
memory. The reference is never LUA_NOREF, as it comes from `luaL_ref`. -/
def ldnsstaticCb (s : State) (ev : LnetEvent) (room : Bool) : State :=
  let s := { s with released := s.released ++ [ev.record] }
  if ev.resolvedIp ≠ ipAddrAny ∧ room = false then s.panic ev.record "not enough memory"
  else { s with running := some ev.record, runs := s.runs ++ [ev] }

/-- A step of the Lua program, of lwIP, or of the Lua task. -/
inductive Label where
  | resolve (domain : Except String String) (fn : Except String Fn) (a : Outcome)
  | answer (i : Nat) (ipaddr : Option Addr) (posted : Bool)
  | handle (room : Bool)
  | finish
  | throw (text : String)

/-- `handle_net_event` is cut in two at the Lua call, which may call `net.dns.resolve` again. -/
def step (s : State) (a : Label) : Option State :=
  if s.halted then none
  else
    match a with
    | .resolve domain fn a => some (netDnsStatic s domain fn a)
    | .answer i ipaddr posted => s.pending[i]?.map fun ev =>
      netDnsStaticCb { s with pending := s.pending.eraseIdx i } ev ipaddr posted
    | .handle room =>
      match s.running, s.queue with
      | none, ev :: queue => some (ldnsstaticCb { s with queue } ev room)
      | _, _ => none
    | .finish => s.running.map fun record => { s with running := none }.free record
    | .throw text => s.running.map fun record => { s with running := none }.panic record text

/-- Every record is freed once, its reference released once and its callback called once by the
time that nobody has the record. -/
structure Accounted (s : State) : Prop where
  freed_le : ∀ r, s.freed.count r ≤ 1
  released_le : ∀ r, s.released.count r ≤ 1
  runs_le : ∀ r, (s.runs.map LnetEvent.record).count r ≤ 1
  freed : ∀ r < s.nextRecord, r ∉ s.held → s.freed.count r = 1
  released : ∀ r ∈ s.refs, r ∉ s.held → s.released.count r = 1
  ran : ∀ r < s.nextRecord, r ∉ s.held → s.Succeeded r →
    (s.runs.map LnetEvent.record).count r = 1

/-- The condition on a step. Of the calls that make a record, it asks for a function, room for
the reference, and an answer of `dns_gethostbyname` that is no error; of a post that it
succeeds; and of a callback that it raises no error. -/
def guard (s : State) : Label → Prop
  | .resolve domain fn a =>
    (∃ got, domain = .error got) ∨ a.alloc = false ∨
      (∃ cb, fn = .ok cb) ∧ a.room = true ∧
        (a.err = .ok ∧ a.posted = true ∨ a.err = .inProgress)
  | .answer i _ posted => i < s.pending.length → posted = true
  | .handle room =>
    s.running = none → ∀ ev ∈ s.queue.head?, ev.resolvedIp ≠ ipAddrAny → room = true
  | .finish => True
  | .throw _ => s.running = none

theorem lwipLuaCheckerr_some {err : Err} (h : err ≠ .ok) :
    ∃ text, lwipLuaCheckerr err = some text := by
  cases err <;> first | exact absurd rfl h | exact ⟨_, rfl⟩

/-- The lookups and posted events of `net.dns.resolve` in the machine of the sockets, with what
it noted of their records. -/
structure Shows (s : Net.System) (t : State) : Prop where
  next : s.nextRecord = t.nextRecord
  pending : s.lookups.filterMap (fun l =>
    match l.arg with
    | .record record cb => some (record, cb)
    | .sock _ => none) = t.pending.map fun ev => (ev.record, ev.cb)
  queue : s.medium.filterMap (fun e =>
    match e with
    | .dnsStatic record cb addr => some ⟨record, cb, addr⟩
    | _ => none) = t.queue
  freed : s.log.recordFreed = t.freed
  released : s.log.released = t.released

theorem Shows.raise {s : Net.System} {t : State} (h : Shows s t) (record : Option Nat)
    (text : String) : Shows (s.raise text) (t.raise record text) :=
  ⟨h.next, h.pending, h.queue, h.freed, h.released⟩

theorem netDnsStaticCb_shows {s : Net.System} {t : State} (h : Shows s t) (ev : LnetEvent)
    (ipaddr : Option Addr) (posted : Bool) :
    Shows (Net.netDnsStaticCb s ev.record ev.cb ipaddr posted)
      (netDnsStaticCb t ev ipaddr posted) := by
  cases posted with
  | true =>
    refine ⟨h.next, h.pending, ?_, h.freed, h.released⟩
    simp [netDnsStaticCb, Net.netDnsStaticCb, System.postMedium, ← h.queue]
  | false =>
    refine ⟨h.next, h.pending, h.queue, ?_, h.released⟩
    simp [netDnsStaticCb, Net.netDnsStaticCb, State.free, h.freed]

theorem netDnsStatic_shows {s : Net.System} {t : State} (h : Shows s t) (domain : String)
    (fn : Except String Fn) (alloc : Bool) (a : Answer) :
    Shows (Net.netDnsStatic s domain fn alloc a)
      (netDnsStatic t (.ok domain) fn ⟨alloc, true, a.err, a.addr, a.posted⟩) := by
  unfold netDnsStatic Net.netDnsStatic netDnsStaticLookup
  rw [h.next]
  have hmade : Shows { s with nextRecord := t.nextRecord + 1 }
      { t with nextRecord := t.nextRecord + 1 } := ⟨rfl, h.pending, h.queue, h.freed, h.released⟩
  cases alloc with
  | false => exact h.raise none "out of memory"
  | true =>
    cases fn with
    | error got => exact hmade.raise (some t.nextRecord) _
    | ok cb =>
      have href : Shows { s with nextRecord := t.nextRecord + 1 }
          { t with nextRecord := t.nextRecord + 1, refs := t.refs ++ [t.nextRecord] } :=
        ⟨rfl, h.pending, h.queue, h.freed, h.released⟩
      by_cases hok : a.err = .ok
      · have hcb := netDnsStaticCb_shows href ⟨t.nextRecord, cb, a.addr⟩ (some a.addr) a.posted
        simpa [hok] using hcb
      · by_cases hprogress : a.err = .inProgress
        · have hpend : Shows
              (System.lookup { s with nextRecord := t.nextRecord + 1 }
                ⟨domain, .record t.nextRecord cb, none⟩)
              { t with nextRecord := t.nextRecord + 1, refs := t.refs ++ [t.nextRecord],
                       pending := t.pending ++ [⟨t.nextRecord, cb, a.addr⟩] } :=
            ⟨rfl, by simp [System.lookup, ← h.pending], h.queue, h.freed, h.released⟩
          simpa [hprogress] using hpend
        · obtain ⟨text, htext⟩ := lwipLuaCheckerr_some hok
          have hraised := href.raise (some t.nextRecord) text
          simpa [hok, hprogress, htext, System.checkerr, Sockets.checkerr, System.raise]
            using hraised

theorem ldnsstaticCb_shows {s : Net.System} {t : State} (h : Shows s t) (ev : LnetEvent) :
    Shows (Net.ldnsstaticCb s ev.record ev.cb ev.resolvedIp)
      ({ ldnsstaticCb t ev true with running := none }.free ev.record) := by
  have hcall : ldnsstaticCb t ev true =
      { t with released := t.released ++ [ev.record], running := some ev.record,
               runs := t.runs ++ [ev] } := by
    simp [ldnsstaticCb]
  rw [hcall]
  refine ⟨h.next, h.pending, h.queue, ?_, ?_⟩
  · simp [Net.ldnsstaticCb, State.free, System.call, h.freed]
  · simp [Net.ldnsstaticCb, System.call, h.released, State.free]

/-- Where every record is: with somebody, freed, or in the first list. The second list has the
references that are made, not released, and not waited for any more; the third the records whose
callback was not called and is not going to be. -/
structure Books (s : State) (records refs calls : List Nat) : Prop where
  records_count : ∀ r, s.held.count r + s.freed.count r + records.count r =
    if r < s.nextRecord then 1 else 0
  refs_count : ∀ r, s.awaited.count r + s.released.count r + refs.count r = s.refs.count r
  made : ∀ r, s.refs.count r ≤ if r < s.nextRecord then 1 else 0
  calls_count : ∀ r, s.awaited.count r + (s.runs.map LnetEvent.record).count r + calls.count r =
    if r < s.nextRecord then 1 else 0
  running : ∀ r, s.running.toList.count r ≤ s.released.count r

variable {s s' : State} {records refs calls : List Nat} {r : Nat}

theorem books_init : Books .init [] [] [] := by
  constructor <;> simp [State.init, State.held, State.awaited]

theorem Books.raise (h : Books s records refs calls) (record : Option Nat) (text : String) :
    Books (s.raise record text) records refs calls :=
  ⟨h.records_count, h.refs_count, h.made, h.calls_count, h.running⟩

theorem Books.panic (h : Books s records refs calls) (record : Nat) (text : String) :
    Books (s.panic record text) records refs calls :=
  ⟨h.records_count, h.refs_count, h.made, h.calls_count, h.running⟩

theorem Books.malloc (h : Books s records refs calls) :
    Books { s with nextRecord := s.nextRecord + 1 } (s.nextRecord :: records) refs
      (s.nextRecord :: calls) where
  records_count r := by
    have := h.records_count r
    simp only [State.held, State.awaited, List.count_cons, beq_iff_eq] at this ⊢
    split at this <;> split <;> split <;> omega
  refs_count := h.refs_count
  made r := by
    have := h.made r
    change s.refs.count r ≤ if r < s.nextRecord + 1 then 1 else 0
    split at this <;> split <;> omega
  calls_count r := by
    have := h.calls_count r
    simp only [State.awaited, List.count_cons, beq_iff_eq] at this ⊢
    split at this <;> split <;> split <;> omega
  running := h.running

theorem Books.fresh (h : Books s records refs calls) : s.nextRecord ∉ s.refs := by
  have := h.made s.nextRecord
  rw [if_neg (Nat.lt_irrefl _)] at this
  exact List.count_eq_zero.mp (Nat.le_zero.mp this)

theorem Books.refs_le (h : Books s records refs calls) (r : Nat) : s.refs.count r ≤ 1 := by
  have := h.made r
  split at this <;> omega

theorem Books.ref (h : Books s records refs calls) (hr : r < s.nextRecord) (hn : r ∉ s.refs) :
    Books { s with refs := s.refs ++ [r] } records (r :: refs) calls where
  records_count := h.records_count
  refs_count q := by
    have := h.refs_count q
    simp only [State.awaited, List.count_append, List.count_cons, List.count_nil] at this ⊢
    omega
  made q := by
    have := h.made q
    have hcount := List.count_eq_zero.mpr hn
    simp only [List.count_append, List.count_cons, List.count_nil, beq_iff_eq]
    split
    · next heq =>
      subst heq
      rw [if_pos hr]
      omega
    · omega
  calls_count := h.calls_count
  running := h.running

/-- A record that lwIP has or that was posted is with somebody, and so is its reference. -/
theorem books_awaited {pending queue : List LnetEvent}
    (hp : (pending.map LnetEvent.record ++ queue.map LnetEvent.record).Perm (r :: s.awaited)) :
    Books { s with pending, queue } records refs calls ↔
      Books s (r :: records) (r :: refs) (r :: calls) := by
  have hawaited : ∀ (l : List Nat) q, (State.awaited { s with pending, queue }).count q +
      l.count q = s.awaited.count q + (r :: l).count q := fun l q => by
    have := hp.count_eq q
    simp only [State.awaited, List.count_cons] at this ⊢
    omega
  have hheld : ∀ (l : List Nat) q, (State.held { s with pending, queue }).count q + l.count q =
      s.held.count q + (r :: l).count q := fun l q => by
    have := hawaited l q
    simp only [State.held, List.count_append]
    omega
  constructor
  · intro h
    refine ⟨fun q => ?_, fun q => ?_, h.made, fun q => ?_, h.running⟩
    · have := h.records_count q
      have := hheld records q
      dsimp only at *
      omega
    · have := h.refs_count q
      have := hawaited refs q
      dsimp only at *
      omega
    · have := h.calls_count q
      have := hawaited calls q
      dsimp only at *
      omega
  · intro h
    refine ⟨fun q => ?_, fun q => ?_, h.made, fun q => ?_, h.running⟩
    · have := h.records_count q
      have := hheld records q
      dsimp only
      omega
    · have := h.refs_count q
      have := hawaited refs q
      dsimp only
      omega
    · have := h.calls_count q
      have := hawaited calls q
      dsimp only
      omega

theorem Books.pend {ev : LnetEvent}
    (h : Books s (ev.record :: records) (ev.record :: refs) (ev.record :: calls)) :
    Books { s with pending := s.pending ++ [ev] } records refs calls :=
  (books_awaited (by simp [State.awaited])).mpr h

theorem Books.post {ev : LnetEvent}
    (h : Books s (ev.record :: records) (ev.record :: refs) (ev.record :: calls)) :
    Books { s with queue := s.queue ++ [ev] } records refs calls := by
  refine (books_awaited ?_).mpr h
  rw [List.map_append, ← List.append_assoc]
  exact List.perm_append_singleton ev.record s.awaited

theorem Books.answered {i : Nat} {ev : LnetEvent} (h : Books s records refs calls)
    (hi : s.pending[i]? = some ev) :
    Books { s with pending := s.pending.eraseIdx i } (ev.record :: records) (ev.record :: refs)
      (ev.record :: calls) := by
  obtain ⟨hlt, rfl⟩ := List.getElem?_eq_some_iff.mp hi
  have hp := ((List.getElem_cons_eraseIdx_perm hlt).map LnetEvent.record).symm
  exact (books_awaited (hp.append_right _)).mp h

theorem Books.dequeued {ev : LnetEvent} {queue : List LnetEvent} (h : Books s records refs calls)
    (hq : s.queue = ev :: queue) :
    Books { s with queue } (ev.record :: records) (ev.record :: refs) (ev.record :: calls) := by
  have hp : (s.pending.map LnetEvent.record ++ s.queue.map LnetEvent.record).Perm
      (ev.record :: State.awaited { s with queue }) := by
    rw [hq]
    exact List.perm_middle
  exact (books_awaited hp).mp h

theorem Books.free (h : Books s (r :: records) refs calls) :
    Books (s.free r) records refs calls where
  records_count q := by
    have := h.records_count q
    change _ = if q < s.nextRecord then 1 else 0
    simp only [State.free, State.held, State.awaited, List.count_append, List.count_cons,
      List.count_nil] at this ⊢
    omega
  refs_count := h.refs_count
  made := h.made
  calls_count := h.calls_count
  running := h.running

theorem Books.release (h : Books s records (r :: refs) calls) :
    Books { s with released := s.released ++ [r] } records refs calls where
  records_count := h.records_count
  refs_count q := by
    have := h.refs_count q
    simp only [State.awaited, List.count_append, List.count_cons, List.count_nil] at this ⊢
    omega
  made := h.made
  calls_count := h.calls_count
  running q := by
    have := h.running q
    simp only [List.count_append]
    omega

theorem Books.run {ev : LnetEvent} (h : Books s (ev.record :: records) refs (ev.record :: calls))
    (hn : s.running = none) (hr : ev.record ∈ s.released) :
    Books { s with running := some ev.record, runs := s.runs ++ [ev] } records refs calls where
  records_count q := by
    have := h.records_count q
    simp only [State.held, State.awaited, hn, Option.toList_none, Option.toList_some,
      List.count_append, List.count_cons, List.count_nil] at this ⊢
    omega
  refs_count := h.refs_count
  made := h.made
  calls_count q := by
    have := h.calls_count q
    simp only [State.awaited, List.map_append, List.map_cons, List.map_nil, List.count_append,
      List.count_cons, List.count_nil] at this ⊢
    omega
  running q := by
    simp only [Option.toList_some, List.count_cons, List.count_nil, beq_iff_eq]
    split
    · next heq =>
      exact heq ▸ List.count_pos_iff.mpr hr
    · exact Nat.zero_le _

theorem Books.returned (h : Books s records refs calls) (hr : s.running = some r) :
    Books { s with running := none } (r :: records) refs calls where
  records_count q := by
    have := h.records_count q
    simp only [State.held, State.awaited, hr, Option.toList_none, Option.toList_some,
      List.count_append, List.count_cons, List.count_nil] at this ⊢
    omega
  refs_count := h.refs_count
  made := h.made
  calls_count := h.calls_count
  running _ := Nat.zero_le _

theorem succeeded_of_raise {record : Option Nat} {text : String}
    (h : (s.raise record text).Succeeded r) : s.Succeeded r :=
  ⟨fun t ht => h.1 t (List.mem_append_left _ ht), h.2⟩

theorem not_succeeded_raise (text : String) : ¬(s.raise (some r) text).Succeeded r :=
  fun h => h.1 text (List.mem_append_right _ List.mem_cons_self)

/-- No callback is missing but for an error or a failed post, and a record is lost where the
panic handler runs. -/
structure Balance (s : State) (records refs calls : List Nat) : Prop
    extends Books s records refs calls where
  failed : ∀ r ∈ calls, ¬s.Succeeded r
  halted : s.halted = true → records ≠ []

theorem not_halted (hh : s.halted = false) : s.halted = true → records ≠ [] :=
  fun hn => absurd (hh.symm.trans hn) nofun

theorem balance_init : Balance .init [] [] [] := ⟨books_init, nofun, nofun⟩

theorem Balance.raise (h : Balance s records refs calls) (record : Option Nat) (text : String) :
    Balance (s.raise record text) records refs calls :=
  ⟨h.toBooks.raise record text, fun q hq hsucc => h.failed q hq (succeeded_of_raise hsucc),
    h.halted⟩

theorem raise_balance (h : Books s records refs calls)
    (hc : ∀ q ∈ calls, q ≠ r → ¬s.Succeeded q) (hh : s.halted = false) (text : String) :
    Balance (s.raise (some r) text) records refs calls where
  toBooks := h.raise (some r) text
  failed q hq hsucc := by
    have hne : q ≠ r := by
      rintro rfl
      exact not_succeeded_raise text hsucc
    exact hc q hq hne (succeeded_of_raise hsucc)
  halted := not_halted hh

theorem panic_balance (h : Books s (r :: records) refs calls)
    (hc : ∀ q ∈ calls, q ≠ r → ¬s.Succeeded q) (hh : s.halted = false) (text : String) :
    Balance (s.panic r text) (r :: records) refs calls where
  toBooks := h.panic r text
  failed := (raise_balance h hc hh text).failed
  halted _ := List.cons_ne_nil _ _

theorem failed_cons (r : Nat) (hc : ∀ q ∈ calls, ¬s.Succeeded q) :
    ∀ q ∈ r :: calls, q ≠ r → ¬s.Succeeded q :=
  fun q hq hne => hc q ((List.mem_cons.mp hq).resolve_left hne)

theorem netDnsStaticCb_balance {ev : LnetEvent}
    (h : Books s (ev.record :: records) (ev.record :: refs) (ev.record :: calls))
    (hc : ∀ q ∈ calls, ¬s.Succeeded q) (hh : s.halted = false) (ipaddr : Option Addr)
    (posted : Bool) :
    ∃ refs' calls', Balance (netDnsStaticCb s ev ipaddr posted) records refs' calls' ∧
      (posted = true ↔ refs' = refs) := by
  cases posted with
  | true =>
    have hpost : Books (netDnsStaticCb s ev ipaddr true) records refs calls := Books.post h
    exact ⟨refs, calls, ⟨hpost, hc, not_halted hh⟩, by simp⟩
  | false =>
    have hfreed := Books.free (s := { s with unposted := s.unposted ++ [ev.record] })
      ⟨h.records_count, h.refs_count, h.made, h.calls_count, h.running⟩
    refine ⟨ev.record :: refs, ev.record :: calls, ⟨hfreed, fun q hq hsucc => ?_, ?_⟩, by simp⟩
    · rcases List.mem_cons.mp hq with rfl | hq
      · exact hsucc.2 (List.mem_append_right _ List.mem_cons_self)
      · exact hc q hq ⟨hsucc.1, fun hm => hsucc.2 (List.mem_append_left _ hm)⟩
    · exact not_halted hh

theorem netDnsStaticLookup_balance (ev : LnetEvent)
    (h : Books s (ev.record :: records) (ev.record :: refs) (ev.record :: calls))
    (hc : ∀ q ∈ calls, ¬s.Succeeded q) (hh : s.halted = false) (a : Outcome) :
    ∃ records' refs' calls', Balance (netDnsStaticLookup s ev a) records' refs' calls' ∧
      ((a.err = .ok ∧ a.posted = true ∨ a.err = .inProgress) ↔
        records' = records ∧ refs' = refs) := by
  unfold netDnsStaticLookup
  by_cases hok : a.err = .ok
  · obtain ⟨refs', calls', hb, hiff⟩ := netDnsStaticCb_balance h hc hh (some a.addr) a.posted
    rw [if_pos hok]
    exact ⟨records, refs', calls', hb, by simp [hok, hiff]⟩
  · rw [if_neg hok]
    by_cases hprogress : a.err = .inProgress
    · rw [if_pos hprogress]
      exact ⟨records, refs, calls, ⟨h.pend, hc, not_halted hh⟩, by simp [hprogress]⟩
    · -- `lwip_lua_checkerr` raises, and `free(ev)` behind it is not reached.
      obtain ⟨text, htext⟩ := lwipLuaCheckerr_some hok
      rw [if_neg hprogress, htext]
      exact ⟨_, _, _, raise_balance h (failed_cons ev.record hc) hh text, by simp [hok, hprogress]⟩

theorem netDnsStatic_balance (h : Balance s records refs calls) (hh : s.halted = false)
    (domain : Except String String) (fn : Except String Fn) (a : Outcome) :
    ∃ records' refs' calls', Balance (netDnsStatic s domain fn a) records' refs' calls' ∧
      (guard s (.resolve domain fn a) ↔ records' = records ∧ refs' = refs) := by
  unfold netDnsStatic
  cases domain with
  | error got => exact ⟨records, refs, calls, h.raise _ _, by simp [guard]⟩
  | ok domain =>
    cases ha : a.alloc with
    | false => exact ⟨records, refs, calls, h.raise _ _, by simp [guard, ha]⟩
    | true =>
      have hrecord := h.malloc
      have hfailed := failed_cons s.nextRecord h.failed
      cases fn with
      | error got => exact ⟨_, _, _, raise_balance hrecord hfailed hh _, by simp [guard, ha]⟩
      | ok cb =>
        cases hroom : a.room with
        | false =>
          exact ⟨_, _, _, raise_balance hrecord hfailed hh _, by simp [guard, ha, hroom]⟩
        | true =>
          have href := hrecord.ref (Nat.lt_succ_self _) h.fresh
          obtain ⟨records', refs', calls', hb, hiff⟩ :=
            netDnsStaticLookup_balance ⟨s.nextRecord, cb, a.addr⟩ href h.failed hh a
          exact ⟨records', refs', calls', hb, by simp [guard, ha, hroom, hiff]⟩

theorem ldnsstaticCb_balance {ev : LnetEvent}
    (h : Books s (ev.record :: records) (ev.record :: refs) (ev.record :: calls))
    (hc : ∀ q ∈ calls, ¬s.Succeeded q) (hh : s.halted = false) (hn : s.running = none)
    (room : Bool) :
    ∃ records' calls', Balance (ldnsstaticCb s ev room) records' refs calls' ∧
      ((ev.resolvedIp ≠ ipAddrAny → room = true) ↔ records' = records) := by
  have hreleased := h.release
  unfold ldnsstaticCb
  by_cases hroom : ev.resolvedIp ≠ ipAddrAny ∧ room = false
  · rw [if_pos hroom]
    exact ⟨_, _, panic_balance hreleased (failed_cons ev.record hc) hh "not enough memory",
      by simp [hroom.1, hroom.2]⟩
  · rw [if_neg hroom]
    have hrun := hreleased.run hn (List.mem_append_right _ List.mem_cons_self)
    refine ⟨records, calls, ⟨hrun, hc, not_halted hh⟩, ?_⟩
    simpa using hroom

/-- A step adds nothing to the lists of what is lost just where it meets the condition. -/
theorem step_balance {a : Label} (h : Balance s records refs calls) (hs : step s a = some s') :
    ∃ records' refs' calls', Balance s' records' refs' calls' ∧
      (guard s a ↔ records' = records ∧ refs' = refs) := by
  unfold step at hs
  split at hs
  · cases hs
  · next hhalted =>
    have hh : s.halted = false := Bool.eq_false_iff.mpr hhalted
    cases a with
    | resolve domain fn a =>
      obtain rfl := Option.some.inj hs
      exact netDnsStatic_balance h hh domain fn a
    | answer i ipaddr posted =>
      obtain ⟨ev, hi, rfl⟩ := Option.map_eq_some_iff.mp hs
      obtain ⟨refs', calls', hb, hiff⟩ :=
        netDnsStaticCb_balance (h.answered hi) h.failed hh ipaddr posted
      obtain ⟨hlt, -⟩ := List.getElem?_eq_some_iff.mp hi
      exact ⟨records, refs', calls', hb, by simp [guard, hlt, hiff]⟩
    | handle room =>
      dsimp only at hs
      split at hs
      · next hn hq =>
        obtain rfl := Option.some.inj hs
        obtain ⟨records', calls', hb, hiff⟩ :=
          ldnsstaticCb_balance (h.dequeued hq) h.failed hh hn room
        exact ⟨records', refs, calls', hb, by simpa [guard, hn, hq] using hiff⟩
      · cases hs
    | finish =>
      obtain ⟨r, hr, rfl⟩ := Option.map_eq_some_iff.mp hs
      have hfreed := (h.returned hr).free
      exact ⟨records, refs, calls, ⟨hfreed, h.failed, not_halted hh⟩, by simp [guard]⟩
    | throw text =>
      obtain ⟨r, hr, rfl⟩ := Option.map_eq_some_iff.mp hs
      exact ⟨_, _, _, panic_balance (h.returned hr) (fun q hq _ => h.failed q hq) hh text,
        by simp [guard, hr]⟩

theorem Books.le (h : Books s records refs calls) (r : Nat) :
    s.freed.count r ≤ 1 ∧ s.released.count r ≤ 1 ∧ (s.runs.map LnetEvent.record).count r ≤ 1 := by
  have hrecords := h.records_count r
  have hrefs := h.refs_count r
  have hmade := h.made r
  have hcalls := h.calls_count r
  split at hrecords <;> simp_all only [if_true, if_false] <;> omega

theorem Balance.ran (h : Balance s records refs calls) (hr : r < s.nextRecord) (hn : r ∉ s.held)
    (hsucc : s.Succeeded r) : (s.runs.map LnetEvent.record).count r = 1 := by
  have hcalls := h.calls_count r
  have hawaited : s.awaited.count r = 0 :=
    List.count_eq_zero.mpr fun hm => hn (List.mem_append_left _ hm)
  have hcalled : calls.count r = 0 := List.count_eq_zero.mpr fun hm => h.failed r hm hsucc
  rw [if_pos hr] at hcalls
  omega

/-- Nothing is lost just where everything is accounted for. -/
theorem Balance.accounted_iff (h : Balance s records refs calls) :
    Accounted s ↔ records = [] ∧ refs = [] := by
  constructor
  · intro hacc
    constructor
    · refine List.eq_nil_iff_forall_not_mem.mpr fun r hr => ?_
      have hcount := h.records_count r
      have hlost := List.count_pos_iff.mpr hr
      have hlt : r < s.nextRecord := by
        by_contra hge
        rw [if_neg hge] at hcount
        omega
      rw [if_pos hlt] at hcount
      have := hacc.freed r hlt (List.count_eq_zero.mp (by omega))
      omega
    · refine List.eq_nil_iff_forall_not_mem.mpr fun r hr => ?_
      have hcount := h.refs_count r
      have hlost := List.count_pos_iff.mpr hr
      have hmade := h.refs_le r
      have hrunning := h.running r
      have := hacc.released r (List.count_pos_iff.mp (by omega)) (List.count_eq_zero.mp (by
        rw [State.held, List.count_append]
        omega))
      omega
  · rintro ⟨rfl, rfl⟩
    refine ⟨fun r => (h.le r).1, fun r => (h.le r).2.1, fun r => (h.le r).2.2, fun r hr hn => ?_,
      fun r hr hn => ?_, fun r => h.ran⟩
    · have hcount := h.records_count r
      rw [if_pos hr, List.count_eq_zero.mpr hn, List.count_nil] at hcount
      omega
    · have hcount := h.refs_count r
      have hmade := h.refs_le r
      have hawaited : s.awaited.count r = 0 :=
        List.count_eq_zero.mpr fun hm => hn (List.mem_append_left _ hm)
      have hpos := List.count_pos_iff.mpr hr
      rw [List.count_nil] at hcount
      omega

/-- Whatever the steps were, nothing is freed, released or called twice, and no callback is
missing but for an error or a failed post. -/
theorem callback_once (h : Reach step (fun _ _ => True) .init s) (r : Nat) :
    s.freed.count r ≤ 1 ∧ s.released.count r ≤ 1 ∧
      (s.runs.map LnetEvent.record).count r ≤ 1 ∧
      (r < s.nextRecord → r ∉ s.held → s.Succeeded r →
        (s.runs.map LnetEvent.record).count r = 1) := by
  obtain ⟨records, refs, calls, hb⟩ := h.invariant
    (fun s => ∃ records refs calls, Balance s records refs calls) ⟨[], [], [], balance_init⟩
    fun s a s' hI _ hs => by
      obtain ⟨records, refs, calls, hb⟩ := hI
      obtain ⟨records', refs', calls', hb', -⟩ := step_balance hb hs
      exact ⟨records', refs', calls', hb'⟩
  exact ⟨(hb.le r).1, (hb.le r).2.1, (hb.le r).2.2, hb.ran⟩

theorem guard_of_none {a : Label} (hh : s.halted = false) (hs : step s a = none) : guard s a := by
  unfold step at hs
  rw [if_neg (by simp [hh])] at hs
  cases a with
  | resolve domain fn a => cases hs
  | answer i ipaddr posted =>
    intro hlt
    rw [Option.map_eq_none_iff, List.getElem?_eq_none_iff] at hs
    omega
  | handle room =>
    intro hn ev hev
    obtain ⟨queue, hq⟩ := List.head?_eq_some_iff.mp hev
    simp [hn, hq] at hs
  | finish => trivial
  | throw text => exact Option.map_eq_none_iff.mp hs

/-- Every state of a run accounts for its records, references and callbacks just where every
step of the run meets the condition. -/
theorem resolve_along_iff (as : List Label) :
    Along step (fun s a => ∀ s', step s a = some s' → Accounted s') .init as ↔
      Along step guard .init as := by
  refine along_iff (fun s => ∃ calls, Balance s [] [] calls) (fun s a hI => ?_)
    (fun s a s' hI hg hs => ?_) ⟨[], balance_init⟩ as
  · obtain ⟨calls, hb⟩ := hI
    constructor
    · intro hacc
      cases hs : step s a with
      | none => exact guard_of_none (by_contra fun hn => hb.halted (by simpa using hn) rfl) hs
      | some s' =>
        obtain ⟨records', refs', calls', hb', hiff⟩ := step_balance hb hs
        exact hiff.mpr (hb'.accounted_iff.mp (hacc s' hs))
    · intro hg s' hs
      obtain ⟨records', refs', calls', hb', hiff⟩ := step_balance hb hs
      exact hb'.accounted_iff.mpr (hiff.mp hg)
  · obtain ⟨calls, hb⟩ := hI
    obtain ⟨records', refs', calls', hb', hiff⟩ := step_balance hb hs
    obtain ⟨rfl, rfl⟩ := hiff.mp hg
    exact ⟨calls', hb'⟩

/-- A host that lwIP has no room to look up leaves the record and the reference behind. -/
theorem failed_lookup_leaks :
    ¬Along step (fun s a => ∀ s', step s a = some s' → Accounted s') .init
      [.resolve (.ok "www.example.org") (.ok 7) ⟨true, true, .mem, ipAddrAny, true⟩] := by
  intro h
  have hfreed := (h.1 _ rfl).freed 0 (by decide) (by decide)
  exact absurd hfreed (by decide)

end Esp32Project.Net.Resolve
