import Esp32Project.Lib.Reach
import Esp32Project.Net.Stable
import Mathlib.Algebra.GroupWithZero.Nat

/-!
Data that a TCP connection receives. The callback hands on and acknowledges the
first segment of a pbuf chain, and the events keep these in order; but it frees
no pbuf that it takes.
-/

set_option autoImplicit false

namespace Esp32Project.Net
open Esp32Project.Lib

/-- The bytes of a call of a TCP receive callback of the socket. -/
def LuaCall.data (ud : Ud) (c : LuaCall) : Option (List UInt8) :=
  match c.args with
  | [_, .str b] => if c.ud = some ud then some b else none
  | _ => none

/-- The bytes of an event with data from a TCP connection of the socket. -/
def Event.data (ud : Ud) : Event → Option (List UInt8)
  | .recvData d b none => if d = ud then some b else none
  | _ => none

def delivered (s : System) (ud : Ud) : List (List UInt8) := s.log.calls.filterMap (LuaCall.data ud)

def queuedData (s : System) (ud : Ud) : List (List UInt8) := s.high.filterMap (Event.data ud)

def taken (s : System) (ud : Ud) : List Taken := s.log.taken.filter fun t => t.ud = ud

def Pbuf.bytes (p : Pbuf) : List UInt8 := p.first ++ p.rest.flatten

def received (s : System) (ud : Ud) : List UInt8 := (taken s ud).flatMap fun t => t.pbuf.bytes

/-- The bytes acknowledged with `tcp_recved`. -/
def acked (s : System) (ud : Ud) : Nat :=
  ((s.log.recved.filter fun r => r.1 = ud).map Prod.snd).sum

/-- A receive callback was registered whenever data of the socket was handled. -/
def Heard (s : System) (ud : Ud) : Prop := ∀ x ∈ s.log.unheard, x.1 ≠ ud

/-- What was passed to Lua or is queued for it is what was received, as far as
that is acknowledged, and every pbuf taken is freed once. -/
structure ReceiveOk (s : System) (ud : Ud) : Prop where
  stream : (delivered s ud ++ queuedData s ud).flatten = (received s ud).take (acked s ud)
  acknowledged : acked s ud = (delivered s ud ++ queuedData s ud).flatten.length
  freed : ∀ t ∈ taken s ud, s.log.pbufFreed.count t.id = 1

/-- The first segments of the pbufs whose events were posted. -/
def firsts (s : System) (ud : Ud) : List (List UInt8) :=
  ((taken s ud).filter Taken.posted).map fun t => t.pbuf.first

structure Receives (s : System) : Prop where
  stream : ∀ ud, Heard s ud → delivered s ud ++ queuedData s ud = firsts s ud
  acks : ∀ ud, acked s ud = (firsts s ud).flatten.length
  unfreed : ∀ t ∈ s.log.taken, t.id ∉ s.log.pbufFreed
  takenId : ∀ t ∈ s.log.taken, t.id < s.nextPbuf
  freedId : ∀ i ∈ s.log.pbufFreed, i < s.nextPbuf
  medium : ∀ e ∈ s.medium, ∀ ud b src, e ≠ .recvData ud b src
  known : ∀ ud u, s.socks.uds ud = some u → ud < s.socks.nextUd
  typed : ∀ ud b src, .recvData ud b src ∈ s.high → ud < s.socks.nextUd ∧
    ∀ u, s.socks.uds ud = some u → (u.type = .udpSocket ↔ src ≠ none)

section

variable {s : System} {ud d : Ud} {u : Userdata}

theorem data_plain {c : LuaCall} (hc : c.plain) : c.data ud = none := by
  unfold LuaCall.data
  split
  · rename_i x b hargs
    exact absurd hargs (hc x b)
  · rfl

theorem Receives.socks {x : Sockets} (h : Receives s) (hx : Keeps s.socks x) :
    Receives { s with socks := x } := by
  refine ⟨h.stream, h.acks, h.unfreed, h.takenId, h.freedId, h.medium, fun ud u hu => ?_,
    fun ud b src he => ?_⟩
  · rcases hx.each ud u hu with ⟨v, hv, -⟩ | ⟨-, hlt⟩
    · exact Nat.lt_of_lt_of_le (h.known ud v hv) hx.nextUd
    · exact hlt
  · obtain ⟨hlt, ht⟩ := h.typed ud b src he
    refine ⟨Nat.lt_of_lt_of_le hlt hx.nextUd, fun u hu => ?_⟩
    rcases hx.each ud u hu with ⟨v, hv, hvt⟩ | ⟨hle, -⟩
    · rw [hvt]
      exact ht v hv
    · exact absurd hlt (Nat.not_lt.mpr hle)

theorem Receives.postMedium (h : Receives s) {e : Event} (he : ∀ ud b src, e ≠ .recvData ud b src)
    (posted : Bool) : Receives (s.postMedium e posted) := by
  cases posted with
  | false => exact h
  | true =>
    refine ⟨h.stream, h.acks, h.unfreed, h.takenId, h.freedId, fun d hd => ?_, h.known, h.typed⟩
    rcases List.mem_append.mp hd with hd | hd
    · exact h.medium d hd
    · rwa [List.mem_singleton.mp hd]

theorem Receives.call (h : Receives s) {c : LuaCall} (hc : c.plain) : Receives (s.call c) := by
  refine ⟨fun ud hh => ?_, h.acks, h.unfreed, h.takenId, h.freedId, h.medium, h.known, h.typed⟩
  have hsame : delivered (s.call c) ud = delivered s ud := by
    simp [delivered, System.call, List.filterMap_append, data_plain hc]
  rw [hsame]
  exact h.stream ud hh

theorem Receives.netDnsCb (h : Receives s) (origin : Option PcbId) (a : Option Addr)
    (posted : Bool) : Receives (netDnsCb s ud origin a posted) := by
  have h' : Receives { s with log.answers := s.log.answers ++ [(origin, a.getD ipAddrAny)] } :=
    ⟨h.stream, h.acks, h.unfreed, h.takenId, h.freedId, h.medium, h.known, h.typed⟩
  exact h'.postMedium (by simp) posted

theorem Receives.freePbuf (h : Receives s) :
    Receives { s with
      nextPbuf := s.nextPbuf + 1, log.pbufFreed := s.log.pbufFreed ++ [s.nextPbuf] } := by
  refine ⟨h.stream, h.acks, fun t ht => ?_, fun t ht => ?_, fun i hi => ?_, h.medium, h.known,
    h.typed⟩
  · have := h.takenId t ht
    simp only [List.mem_append, List.mem_singleton, not_or]
    exact ⟨h.unfreed t ht, by omega⟩
  · exact Nat.lt_succ_of_lt (h.takenId t ht)
  · rcases List.mem_append.mp hi with hi | hi
    · exact Nat.lt_succ_of_lt (h.freedId i hi)
    · rw [List.mem_singleton.mp hi]
      exact Nat.lt_succ_self _

theorem queuedData_push (s : System) (ud d : Ud) (b : List UInt8)
    (src : Option (Addr × Nat)) :
    queuedData { s with high := s.high ++ [.recvData ud b src] } d =
      queuedData s d ++ if src = none ∧ ud = d then [b] else [] := by
  cases src <;> by_cases hd : ud = d <;>
    simp [queuedData, List.filterMap_append, Event.data, hd]

theorem typed_push (h : Receives s) (hu : s.socks.uds ud = some u) {b : List UInt8}
    {src : Option (Addr × Nat)} (ht : u.type = .udpSocket ↔ src ≠ none) (d : Ud) (b' : List UInt8)
    (src' : Option (Addr × Nat)) (he : .recvData d b' src' ∈ s.high ++ [.recvData ud b src]) :
    d < s.socks.nextUd ∧ ∀ u, s.socks.uds d = some u → (u.type = .udpSocket ↔ src' ≠ none) := by
  rcases List.mem_append.mp he with he | he
  · exact h.typed d b' src' he
  · obtain ⟨rfl, rfl, rfl⟩ : d = ud ∧ b' = b ∧ src' = src := by simpa using he
    refine ⟨h.known d u hu, fun v hv => ?_⟩
    obtain rfl : u = v := Option.some.inj (hu.symm.trans hv)
    exact ht

theorem Receives.udpData (h : Receives s) (hu : s.socks.uds ud = some u) (p : Pbuf) (addr : Addr)
    (port : Nat) (posted : Bool) : Receives (netUdpRecvCb s ud u p addr port posted) := by
  unfold netUdpRecvCb
  dsimp only
  split
  · exact h.freePbuf
  rename_i hc
  simp only [ne_eq, not_or, not_not, Bool.not_eq_false] at hc
  cases posted with
  | false =>
    exact ⟨h.stream, h.acks, h.unfreed, fun t ht => Nat.lt_succ_of_lt (h.takenId t ht),
      fun i hi => Nat.lt_succ_of_lt (h.freedId i hi), h.medium, h.known, h.typed⟩
  | true =>
    refine ⟨fun d hh => ?_, h.acks, h.unfreed, fun t ht => Nat.lt_succ_of_lt (h.takenId t ht),
      fun i hi => Nat.lt_succ_of_lt (h.freedId i hi), h.medium, h.known,
      typed_push h hu (by simp [hc.2.1])⟩
    have hq := queuedData_push s ud d p.first (some (addr, port))
    rw [if_neg (by simp), List.append_nil] at hq
    exact (congrArg (delivered s d ++ ·) hq).trans (h.stream d hh)

theorem firsts_push (x : Taken) :
    firsts { s with log.taken := s.log.taken ++ [x] } d =
      firsts s d ++ if x.ud = d ∧ x.posted = true then [x.pbuf.first] else [] := by
  by_cases hd : x.ud = d <;> by_cases hp : x.posted = true <;>
    simp [firsts, taken, List.filter_append, hd, hp]

theorem acked_push (s : System) (ud d : Ud) (n : Nat) :
    acked { s with log.recved := s.log.recved ++ [(ud, n)] } d =
      acked s d + if ud = d then n else 0 := by
  by_cases hd : ud = d <;> simp [acked, List.filter_append, hd]

theorem Receives.tcpData (h : Receives s) (hu : s.socks.uds ud = some u)
    (ht : u.type = .tcpClient) (p : Pbuf) (posted : Bool) :
    Receives (tcpRecvData s ud p posted) := by
  have hid : ∀ t ∈ s.log.taken ++ [⟨ud, s.nextPbuf, p, posted⟩], t.id ∉ s.log.pbufFreed := by
    intro t hmem
    rcases List.mem_append.mp hmem with hmem | hmem
    · exact h.unfreed t hmem
    · rw [List.mem_singleton.mp hmem]
      exact fun hf => Nat.lt_irrefl _ (h.freedId _ hf)
  have hlt : ∀ t ∈ s.log.taken ++ [⟨ud, s.nextPbuf, p, posted⟩], t.id < s.nextPbuf + 1 := by
    intro t hmem
    rcases List.mem_append.mp hmem with hmem | hmem
    · exact Nat.lt_succ_of_lt (h.takenId t hmem)
    · rw [List.mem_singleton.mp hmem]
      exact Nat.lt_succ_self _
  have hfirsts := fun d => firsts_push (s := s) (d := d) ⟨ud, s.nextPbuf, p, posted⟩
  have hfreed : ∀ i ∈ s.log.pbufFreed, i < s.nextPbuf + 1 := fun i hi =>
    Nat.lt_succ_of_lt (h.freedId i hi)
  cases posted with
  | false =>
    simp only [Bool.false_eq_true, and_false, if_false, List.append_nil] at hfirsts
    refine ⟨fun d hh => ?_, fun d => ?_, hid, hlt, hfreed, h.medium, h.known, h.typed⟩
    · exact (h.stream d hh).trans (hfirsts d).symm
    · exact (h.acks d).trans (by rw [← hfirsts d]; rfl)
  | true =>
    simp only [and_true] at hfirsts
    refine ⟨fun d hh => ?_, fun d => ?_, hid, hlt, hfreed, h.medium, h.known,
      typed_push h hu (by simp [ht])⟩
    · have hq := queuedData_push s ud d p.first none
      simp only [true_and] at hq
      calc delivered s d ++ queuedData { s with high := s.high ++ [.recvData ud p.first none] } d
          = (delivered s d ++ queuedData s d) ++ if ud = d then [p.first] else [] := by
            rw [hq, List.append_assoc]
        _ = firsts s d ++ if ud = d then [p.first] else [] := by rw [h.stream d hh]
        _ = _ := (hfirsts d).symm
    · have ha := acked_push s ud d p.first.length
      calc acked { s with log.recved := s.log.recved ++ [(ud, p.first.length)] } d
          = acked s d + if ud = d then p.first.length else 0 := ha
        _ = (firsts s d ++ if ud = d then [p.first] else []).flatten.length := by
            rw [h.acks d]
            by_cases hd : ud = d <;> simp [hd]
        _ = _ := by rw [← hfirsts d]; rfl

end

theorem receives_stable : Stable Receives where
  socks hx h := h.socks hx
  post he h := h.postMedium (by rintro ud b src rfl; cases he) true
  call hc h := h.call hc
  record h := ⟨h.stream, h.acks, h.unfreed, h.takenId, h.freedId, h.medium, h.known, h.typed⟩
  lookup hx h :=
    have h' := h.socks hx.1
    ⟨h'.stream, h'.acks, h'.unfreed, h'.takenId, h'.freedId, h'.medium, h'.known, h'.typed⟩
  answer hx h := (h.socks hx.1).netDnsCb _ _ _
  done _ h := Receives.netDnsCb (by exact
    ⟨h.stream, h.acks, h.unfreed, h.takenId, h.freedId, h.medium, h.known, h.typed⟩) _ _ _
  forget h := ⟨h.stream, h.acks, h.unfreed, h.takenId, h.freedId, h.medium, h.known, h.typed⟩
  tcpData hu ht h := h.tcpData hu ht _ _
  udpData hu h := h.udpData hu _ _ _ _
  accept h := ⟨h.stream, h.acks, h.unfreed, h.takenId, h.freedId, h.medium, h.known, h.typed⟩

section

variable {s t : System} {e : Event}

theorem receives_handlerEnd {connected : Bool} (h : Receives s)
    (hs : handlerEnd s connected e = some t) : Receives t := by
  obtain ⟨x, hx, rfl⟩ := handlerEnd_connects hs
  have h' := h.socks hx
  exact ⟨h'.stream, h'.acks, h'.unfreed, h'.takenId, h'.freedId, h'.medium, h'.known, h'.typed⟩

theorem receives_data {connected : Bool} {ud : Ud} {payload : List UInt8}
    {src : Option (Addr × Nat)} {es : List Event} (h : Receives s)
    (hq : s.high = .recvData ud payload src :: es)
    (hs : handleNetEvent { s with high := es } connected (.recvData ud payload src) = some t) :
    Receives t := by
  have htyped : ∀ ud b src, .recvData ud b src ∈ es → ud < s.socks.nextUd ∧
      ∀ u, s.socks.uds ud = some u → (u.type = .udpSocket ↔ src ≠ none) :=
    fun ud b src he => h.typed ud b src (by simp [hq, he])
  obtain ⟨-, ht⟩ := h.typed ud payload src (by simp [hq])
  have hhead : ∀ d, queuedData s d =
      (if src = none ∧ ud = d then [payload] else []) ++ queuedData { s with high := es } d := by
    intro d
    cases src <;> by_cases hd : ud = d <;>
      simp [queuedData, hq, List.filterMap_cons, Event.data, hd]
  obtain ⟨u, hu, rfl⟩ := Option.map_eq_some_iff.mp hs
  have htype := ht u hu
  split
  · rename_i c hc
    refine ⟨fun d hh => ?_, h.acks, h.unfreed, h.takenId, h.freedId, h.medium, h.known, htyped⟩
    have hcall : delivered (({ s with high := es } : System).call c) d =
        delivered s d ++ if src = none ∧ ud = d then [payload] else [] := by
      obtain ⟨f, -, rfl⟩ := Option.map_eq_some_iff.mp hc
      cases src with
      | none =>
        have hne : u.type ≠ .udpSocket := fun hudp => htype.mp hudp rfl
        by_cases hd : ud = d <;>
          simp [delivered, System.call, List.filterMap_append, LuaCall.data, hne, hd]
      | some src =>
        have hudp : u.type = .udpSocket := htype.mpr (by simp)
        simp [delivered, System.call, List.filterMap_append, LuaCall.data, hudp]
    calc delivered (({ s with high := es } : System).call c) d ++ queuedData { s with high := es } d
        = delivered s d ++ queuedData s d := by rw [hcall, hhead d, List.append_assoc]
      _ = firsts s d := h.stream d hh
  · refine ⟨fun d hh => ?_, h.acks, h.unfreed, h.takenId, h.freedId, h.medium, h.known, htyped⟩
    have hne : ud ≠ d := hh (ud, payload) (by simp)
    have hqueue := hhead d
    rw [if_neg (fun hc => hne hc.2), List.nil_append] at hqueue
    have hold := h.stream d fun x hx => hh x (by simp [hx])
    rw [hqueue] at hold
    exact hold

theorem receives_pop (h : Receives s) (hn : nextEvent s = some (e, t))
    (he : ∀ ud b src, e ≠ .recvData ud b src) : Receives t := by
  rcases nextEvent_cases hn with ⟨es, hq, rfl⟩ | ⟨-, es, hq, rfl⟩
  · refine ⟨fun d hh => ?_, h.acks, h.unfreed, h.takenId, h.freedId, h.medium, h.known,
      fun ud b src hm => h.typed ud b src (by simp [hq, show _ ∈ es from hm])⟩
    have hdata : e.data d = none := by
      unfold Event.data
      split
      · exact absurd rfl (he _ _ _)
      · rfl
    have hsame : queuedData s d = queuedData { s with high := es } d := by
      simp [queuedData, hq, hdata]
    rw [← hsame]
    exact h.stream d hh
  · exact ⟨h.stream, h.acks, h.unfreed, h.takenId, h.freedId,
      fun d hd => h.medium d (by simp [hq, show d ∈ es from hd]), h.known, h.typed⟩

theorem receives_step {a : Label} (h : Receives s) (hs : step s a = some t) : Receives t := by
  refine receives_stable.step h hs (fun c ha => ?_) (fun c ha => ?_)
  · subst ha
    simp only [step] at hs
    split at hs
    · obtain ⟨⟨e, r⟩, hn, hs⟩ := Option.bind_eq_some_iff.mp hs
      by_cases he : ∃ ud b src, e = .recvData ud b src
      · obtain ⟨ud, b, src, rfl⟩ := he
        rcases nextEvent_cases hn with ⟨es, hq, rfl⟩ | ⟨-, es, hq, rfl⟩
        · exact receives_data h hq hs
        · exact absurd rfl (h.medium _ (by simp [hq]) ud b src)
      · have hne : ∀ ud b src, e ≠ .recvData ud b src := fun ud b src h' => he ⟨ud, b, src, h'⟩
        have hr := receives_pop h hn hne
        refine receives_stable.handled hr hs (fun ud b src h' => absurd h' (hne ud b src)) ?_ ?_
          (fun _ => receives_handlerEnd hr)
        · rintro ud newpcb rfl
          obtain ⟨u, -, hs⟩ := Option.bind_eq_some_iff.mp hs
          obtain ⟨x, b, c, hx, hc, rfl⟩ := lacceptCb_bound hs
          have h' := hr.socks hx
          exact Receives.call (by exact ⟨h'.stream, h'.acks, h'.unfreed, h'.takenId, h'.freedId,
            h'.medium, h'.known, h'.typed⟩) hc
        · rintro c hc rfl
          have h' := hr.call (suspending_plain hc)
          exact ⟨h'.stream, h'.acks, h'.unfreed, h'.takenId, h'.freedId, h'.medium, h'.known,
            h'.typed⟩
    · cases hs
  · subst ha
    obtain ⟨e, -, hs⟩ := Option.bind_eq_some_iff.mp hs
    exact receives_handlerEnd (s := { s with frame := none }) ⟨h.stream, h.acks, h.unfreed,
      h.takenId, h.freedId, h.medium, h.known, h.typed⟩ hs

theorem receives_init : Receives .init where
  stream _ _ := rfl
  acks _ := rfl
  unfreed t ht := by simp [System.init] at ht
  takenId t ht := by simp [System.init] at ht
  freedId i hi := by simp [System.init] at hi
  medium e he := by simp [System.init] at he
  known ud u hu := by simp [System.init, Sockets.init] at hu
  typed ud b src he := by simp [System.init] at he

theorem receives_reach (h : Reach step (fun _ _ => True) .init s) : Receives s :=
  h.invariant Receives receives_init fun _ _ _ hi _ hs => receives_step hi hs

end

/-- In every run, Lua gets the first segments of the pbufs whose events could be
posted, in order, and these bytes are acknowledged. -/
theorem delivered_firsts (s : System) (h : Reach step (fun _ _ => True) .init s) (ud : Ud)
    (hh : Heard s ud) :
    delivered s ud ++ queuedData s ud = firsts s ud ∧
      acked s ud = (firsts s ud).flatten.length :=
  ⟨(receives_reach h).stream ud hh, (receives_reach h).acks ud⟩

/-- In every run, the data of a connection is received as it should exactly if
no pbuf was taken for it. -/
theorem receiveOk_iff (s : System) (h : Reach step (fun _ _ => True) .init s) (ud : Ud)
    (hh : Heard s ud) : ReceiveOk s ud ↔ taken s ud = [] := by
  have hr := receives_reach h
  constructor
  · intro hok
    by_contra hne
    obtain ⟨t, ht⟩ := List.exists_mem_of_ne_nil _ hne
    have hone := hok.freed t ht
    rw [List.count_eq_zero_of_not_mem (hr.unfreed t (List.mem_of_mem_filter ht))] at hone
    cases hone
  · intro hnone
    have hfirsts : firsts s ud = [] := by simp [firsts, hnone]
    have hstream := hr.stream ud hh
    have hacked := hr.acks ud
    rw [hfirsts] at hstream hacked
    refine ⟨?_, ?_, fun t ht => ?_⟩
    · simp [hstream, received, hnone]
    · rw [hstream, hacked]
    · simp [hnone] at ht

/-- What Lua gets is right as long as every chain has one segment and no event is lost. -/
theorem stream_of_single_segments (s : System) (h : Reach step (fun _ _ => True) .init s) (ud : Ud)
    (hh : Heard s ud)
    (hone : ∀ t ∈ taken s ud, t.posted = true ∧ t.pbuf.rest.flatten = []) :
    (delivered s ud ++ queuedData s ud).flatten = received s ud := by
  rw [(delivered_firsts s h ud hh).1, firsts, received, List.flatMap_def,
    List.filter_eq_self.mpr fun t ht => (hone t ht).1]
  congr 1
  refine List.map_congr_left fun t ht => ?_
  rw [Pbuf.bytes, (hone t ht).2, List.append_nil]

def delivery : List Label :=
  [.createConnection none none, .api 0 (.on .receive (.fn 4)),
    .api 0 (.connect 80 (some "host") ⟨true, .ok, 7, true⟩), .handle true,
    .lwip 0 (.connected .ok true), .handle true,
    .lwip 0 (.tcpRecv (some ⟨[1, 2], [[3]]⟩) .ok true), .handle true]

theorem receiveOk_iff_delivery :
    ∃ s, runScript step (fun _ _ => true) .init delivery = some s ∧
      (ReceiveOk s 0 ↔ taken s 0 = []) := by
  have hrun : (runScript step (fun _ _ => true) .init delivery).map (fun s => s.log.unheard) =
      some [] := by decide +kernel
  obtain ⟨s, hs, hv⟩ := Option.map_eq_some_iff.mp hrun
  exact ⟨s, hs, receiveOk_iff s (reach_of_script (fun _ _ _ => trivial) hs) 0
    (by simp [Heard, hv])⟩

/-- The callback takes three bytes, hands on two of them, and frees nothing. -/
theorem receive_truncates :
    ∃ s, Reach step (fun _ _ => True) .init s ∧ Heard s 0 ∧ received s 0 = [1, 2, 3] ∧
      delivered s 0 = [[1, 2]] ∧ s.log.pbufFreed = [] ∧ ¬ ReceiveOk s 0 := by
  have hrun : (runScript step (fun _ _ => true) .init delivery).map
      (fun s => (s.log.unheard, s.log.taken, delivered s 0, s.log.pbufFreed)) =
      some ([], [⟨0, 0, ⟨[1, 2], [[3]]⟩, true⟩], [[1, 2]], []) := by decide +kernel
  obtain ⟨s, hs, hv⟩ := Option.map_eq_some_iff.mp hrun
  simp only [Prod.mk.injEq] at hv
  obtain ⟨hu, ht, hd, hf⟩ := hv
  have htaken : taken s 0 = [⟨0, 0, ⟨[1, 2], [[3]]⟩, true⟩] := by simp [taken, ht]
  refine ⟨s, reach_of_script (fun _ _ _ => trivial) hs, by simp [Heard, hu],
    by simp [received, htaken, Pbuf.bytes], hd, hf, fun hok => ?_⟩
  have hone := hok.freed _ (by rw [htaken]; exact List.mem_singleton_self _)
  simp [hf] at hone

end Esp32Project.Net
