import Esp32Project.Net.Machine

/-!
What the Lua calls do to the userdata: each sets the one it is called on, and
all but a few leave type, count and anchor alone.
-/

set_option autoImplicit false

namespace Esp32Project.Net

/-- One userdata is set, whatever happens to the control blocks. -/
structure Sets (s t : Sockets) (ud : Ud) (u : Userdata) : Prop where
  uds : t.uds = Function.update s.uds ud (some u)
  nextUd : t.nextUd = s.nextUd
  nextPcb : s.nextPcb ≤ t.nextPcb

/-- Type, count and anchor stay, and no client gets a control block. -/
structure Mild (u u' : Userdata) : Prop where
  type : u'.type = u.type
  waitDns : u'.waitDns = u.waitDns
  selfRef : u.selfRef = true → u'.selfRef = true
  pcb : u'.pcb ≠ none → u'.pcb = u.pcb ∨ u'.selfRef = true ∧ u.type ≠ .tcpClient

/-- Nor does the socket lose its control block, or get an anchor without one. -/
structure Gentle (u u' : Userdata) : Prop extends Mild u u' where
  held : u.pcb ≠ none → u'.pcb ≠ none
  anchor : u'.selfRef = true → u.selfRef = true ∨ u'.pcb ≠ none

section

variable {s t r : Sockets} {ud : Ud} {u u' u'' : Userdata}

theorem Sets.trans (h : Sets s t ud u) (h' : Sets t r ud u') : Sets s r ud u' where
  uds := by rw [h'.uds, h.uds, Function.update_idem]
  nextUd := h'.nextUd.trans h.nextUd
  nextPcb := Nat.le_trans h.nextPcb h'.nextPcb

theorem sets_self (hu : s.uds ud = some u) : Sets s s ud u :=
  ⟨by rw [← hu, Function.update_eq_self], rfl, Nat.le_refl _⟩

theorem sets_raise (hu : s.uds ud = some u) (text : String) : Sets s (s.raise text) ud u :=
  ⟨(sets_self hu).uds, rfl, Nat.le_refl _⟩

theorem sets_setUd : Sets s (s.setUd ud u) ud u := ⟨rfl, rfl, Nat.le_refl _⟩

theorem Sets.checkerr (h : Sets s t ud u) (err : Err) : Sets s (t.checkerr err) ud u := by
  cases err <;> exact ⟨h.uds, h.nextUd, h.nextPcb⟩

theorem Mild.refl : Mild u u := ⟨rfl, rfl, id, fun _ => .inl rfl⟩

theorem Mild.trans (h : Mild u u') (h' : Mild u' u'') : Mild u u'' where
  type := h'.type.trans h.type
  waitDns := h'.waitDns.trans h.waitDns
  selfRef hr := h'.selfRef (h.selfRef hr)
  pcb hp := by
    rcases h'.pcb hp with hsame | ⟨hr, hc⟩
    · rcases h.pcb (hsame ▸ hp) with hold | ⟨hr, hc⟩
      · exact .inl (hsame.trans hold)
      · exact .inr ⟨h'.selfRef hr, hc⟩
    · exact .inr ⟨hr, h.type ▸ hc⟩

theorem Gentle.refl : Gentle u u := ⟨.refl, id, .inl⟩

theorem Gentle.trans (h : Gentle u u') (h' : Gentle u' u'') : Gentle u u'' where
  toMild := h.toMild.trans h'.toMild
  held hp := h'.held (h.held hp)
  anchor hr := by
    rcases h'.anchor hr with hr | hp
    · exact (h.anchor hr).imp_right h'.held
    · exact .inr hp

@[simp] theorem checkerr_uds (err : Err) : (s.checkerr err).uds = s.uds := by
  cases err <;> rfl

@[simp] theorem checkerr_nextUd (err : Err) : (s.checkerr err).nextUd = s.nextUd := by
  cases err <;> rfl

@[simp] theorem checkerr_nextPcb (err : Err) : (s.checkerr err).nextPcb = s.nextPcb := by
  cases err <;> rfl

theorem tcpClose_same (p : PcbId) : ∃ pcbs, s.tcpClose p = { s with pcbs } := by
  unfold Sockets.tcpClose
  split
  · split
    · exact ⟨_, rfl⟩
    · exact ⟨s.pcbs, rfl⟩
  · exact ⟨s.pcbs, rfl⟩

theorem closePcb_same (type : NetType) (p : PcbId) (closed : Bool) :
    ∃ pcbs, closePcb s type p closed = { s with pcbs } := by
  cases type with
  | tcpServer => exact tcpClose_same p
  | udpSocket => exact ⟨_, rfl⟩
  | tcpClient =>
    cases closed with
    | true => exact tcpClose_same p
    | false => exact ⟨_, rfl⟩

theorem netListen_gentle (hu : s.uds ud = some u) (addr : Option Addr) (fn : Option Fn)
    (b : Binding) : ∃ u', Sets s (netListen s ud u addr fn b) ud u' ∧ Gentle u u' := by
  unfold netListen
  split
  · exact ⟨u, sets_raise hu _, .refl⟩
  split
  · exact ⟨u, sets_raise hu _, .refl⟩
  split
  · exact ⟨u, sets_raise hu _, .refl⟩
  split
  · exact ⟨u, sets_raise hu _, .refl⟩
  rename_i hc hp _ _
  -- the callback is stored, whatever becomes of the binding
  have hstored : Gentle u (if u.type = .tcpServer then { u with cbAccept := fn } else u) := by
    split
    · exact ⟨⟨rfl, rfl, id, fun _ => .inl rfl⟩, id, .inl⟩
    · exact .refl
  generalize (if u.type = .tcpServer then { u with cbAccept := fn } else u) = v at hstored ⊢
  dsimp only
  split
  · exact ⟨v, ⟨rfl, rfl, Nat.le_refl _⟩, hstored⟩
  generalize (if v.type = .tcpServer ∧ b.bind = .ok ∧ (!b.listen) = true then Err.mem
    else b.bind) = err
  split
  · refine ⟨v, ⟨?_, ?_, ?_⟩, hstored⟩ <;>
      simp [Sockets.setUd, Sockets.setPcb, Sockets.newPcb]
  · refine ⟨{ v with pcb := some s.nextPcb, selfRef := true }, ⟨rfl, rfl, Nat.le_succ _⟩,
      ⟨hstored.type, hstored.waitDns, fun _ => rfl, fun _ => .inr ⟨rfl, hc⟩⟩, fun _ => by simp,
      fun _ => .inr (by simp)⟩

theorem setCallback_gentle {name : OnName} {fn : Option Fn} (h : setCallback u name fn = some u') :
    Gentle u u' := by
  unfold setCallback at h
  split at h <;> (try split at h) <;> cases h <;>
    exact ⟨⟨rfl, rfl, id, fun _ => .inl rfl⟩, id, .inl⟩

theorem netOn_gentle (hu : s.uds ud = some u) (name : OnName) (arg : OnArg) :
    ∃ u', Sets s (netOn s ud u name arg) ud u' ∧ Gentle u u' := by
  unfold netOn
  split
  · exact ⟨u, sets_raise hu _, .refl⟩
  dsimp only
  split
  · exact ⟨u, sets_raise hu _, .refl⟩
  rename_i u' hset
  split
  · exact ⟨u, sets_raise hu _, .refl⟩
  · exact ⟨u', sets_setUd, setCallback_gentle hset⟩

theorem netHold_gentle (hu : s.uds ud = some u) (hold : Bool) :
    ∃ u', Sets s (netHold s ud u hold) ud u' ∧ Gentle u u' := by
  unfold netHold
  split
  · exact ⟨u, sets_raise hu _, .refl⟩
  · exact ⟨{ u with hold }, sets_setUd, ⟨rfl, rfl, id, fun _ => .inl rfl⟩, id, .inl⟩

/-- Without a control block the call changes nothing; else the anchor goes
unless a lookup is waited for. -/
theorem netClose_sets (hu : s.uds ud = some u) (closed : Bool) :
    ∃ u', Sets s (netClose s ud u closed) ud u' ∧
      u' = if u.pcb = none then u
        else if u.type = .tcpServer ∨ u.waitDns = 0 then { u with pcb := none, selfRef := false }
        else { u with pcb := none } := by
  unfold netClose
  split
  · rename_i hp
    exact ⟨u, sets_raise hu _, by simp [hp]⟩
  · rename_i p hp
    obtain ⟨pcbs, hclose⟩ := closePcb_same (s := s) u.type p closed
    simp only [hp, hclose, reduceCtorEq, if_false, true_and]
    split <;> exact ⟨_, ⟨rfl, rfl, Nat.le_refl _⟩, rfl⟩

theorem netDelete_same (s : Sockets) (ud : Ud) (u : Userdata) : ∃ pcbs,
    netDelete s ud u = { s with uds := Function.update s.uds ud none, pcbs } := by
  unfold netDelete
  cases u.pcb with
  | none => exact ⟨s.pcbs, rfl⟩
  | some p =>
    obtain ⟨pcbs, hclose⟩ := closePcb_same (s := s) u.type p false
    exact ⟨pcbs, by simp [hclose]⟩

theorem bindUdp_gentle (s : Sockets) (ud : Ud) (u : Userdata) (hu : s.uds ud = some u)
    (b : Binding) : ∃ u', Sets s (bindUdp s ud u b).1 ud u' ∧ Gentle u u' := by
  unfold bindUdp
  split
  · rename_i hc
    dsimp only
    split
    · exact ⟨u, sets_raise hu _, .refl⟩
    split
    · refine ⟨u, ⟨?_, ?_, ?_⟩, .refl⟩
      · simpa [Sockets.setPcb, Sockets.newPcb] using (sets_self hu).uds
      · simp [Sockets.setPcb, Sockets.newPcb]
      · simp [Sockets.setPcb, Sockets.newPcb]
    · exact ⟨_, ⟨rfl, rfl, Nat.le_succ _⟩, ⟨rfl, rfl, fun _ => rfl,
        fun _ => .inr ⟨rfl, by simp [hc.1]⟩⟩, fun _ => by simp, fun _ => .inr (by simp)⟩
  · exact ⟨u, sets_self hu, .refl⟩

end

structure SameTraffic (s t : System) : Prop where
  lookups : t.lookups = s.lookups
  medium : t.medium = s.medium
  high : t.high = s.high
  frame : t.frame = s.frame

section

variable {s : System} {ud : Ud} {u : Userdata}

@[simp] theorem callAny_socks (c : Option LuaCall) : (s.callAny c).socks = s.socks := by
  cases c <;> rfl

@[simp] theorem postMedium_socks (e : Event) (posted : Bool) :
    (s.postMedium e posted).socks = s.socks := by
  cases posted <;> rfl

@[simp] theorem postHigh_socks (e : Event) (posted : Bool) :
    (s.postHigh e posted).socks = s.socks := by
  cases posted <;> rfl

@[simp] theorem netDnsCb_socks (origin : Option PcbId) (ipaddr : Option Addr) (posted : Bool) :
    (netDnsCb s ud origin ipaddr posted).socks = s.socks := by
  simp [netDnsCb]

theorem callAny_traffic (c : Option LuaCall) : SameTraffic s (s.callAny c) := by
  cases c <;> exact ⟨rfl, rfl, rfl, rfl⟩

theorem sendData_quiet (s : System) (ud : Ud) (u : Userdata) (a : Sending) :
    SameTraffic s (sendData s ud u a) ∧ (sendData s ud u a).socks.uds = s.socks.uds ∧
      (sendData s ud u a).socks.nextUd = s.socks.nextUd ∧
      (sendData s ud u a).socks.nextPcb = s.socks.nextPcb := by
  unfold sendData
  split
  · exact ⟨⟨rfl, rfl, rfl, rfl⟩, rfl, rfl, rfl⟩
  split
  · split
    · exact ⟨⟨rfl, rfl, rfl, rfl⟩, rfl, rfl, rfl⟩
    · have hcall := callAny_traffic (s := s) (u.cbSent.map fun f => ⟨f, some ud, [.sock ud]⟩)
      refine ⟨⟨hcall.lookups, hcall.medium, hcall.high, hcall.frame⟩, ?_⟩
      simp [System.checkerr]
  · refine ⟨⟨rfl, rfl, rfl, rfl⟩, ?_⟩
    simp [System.checkerr]

theorem netSend_gentle (hu : s.socks.uds ud = some u) (port : Int) (addr : Option Addr)
    (data : List UInt8) (fn : Option Fn) (a : Sending) :
    SameTraffic s (netSend s ud u port addr data fn a) ∧
      ∃ u', Sets s.socks (netSend s ud u port addr data fn a).socks ud u' ∧ Gentle u u' := by
  unfold netSend
  split
  · exact ⟨⟨rfl, rfl, rfl, rfl⟩, u, sets_raise hu _, .refl⟩
  split
  · exact ⟨⟨rfl, rfl, rfl, rfl⟩, u, sets_raise hu _, .refl⟩
  split
  · exact ⟨⟨rfl, rfl, rfl, rfl⟩, u, sets_raise hu _, .refl⟩
  split
  · exact ⟨⟨rfl, rfl, rfl, rfl⟩, u, sets_raise hu _, .refl⟩
  have hsent : Gentle u { u with cbSent := fn.or u.cbSent } :=
    ⟨⟨rfl, rfl, id, fun _ => .inl rfl⟩, id, .inl⟩
  generalize ({ u with cbSent := fn.or u.cbSent } : Userdata) = v at hsent ⊢
  dsimp only [System.setUd]
  obtain ⟨u', hset, hm⟩ := bindUdp_gentle (s.socks.setUd ud v) ud v
    (by simp [Sockets.setUd]) a.binding
  generalize bindUdp (s.socks.setUd ud v) ud v a.binding = r at hset ⊢
  have hsets : Sets s.socks r.1 ud u' :=
    Sets.trans sets_setUd hset
  cases r.2 with
  | none => exact ⟨⟨rfl, rfl, rfl, rfl⟩, u', hsets, hsent.trans hm⟩
  | some w =>
    obtain ⟨ht, hx, hn, hp⟩ := sendData_quiet { s with socks := r.1 } ud w a
    exact ⟨⟨ht.lookups, ht.medium, ht.high, ht.frame⟩, u',
      ⟨hx.trans hsets.uds, hn.trans hsets.nextUd,
        Nat.le_trans hsets.nextPcb (Nat.le_of_eq hp.symm)⟩, hsent.trans hm⟩

theorem nextEvent_cases {t : System} {e : Event} (hn : nextEvent s = some (e, t)) :
    (∃ es, s.high = e :: es ∧ t = { s with high := es }) ∨
      s.high = [] ∧ ∃ es, s.medium = e :: es ∧ t = { s with medium := es } := by
  unfold nextEvent at hn
  split at hn
  · cases hn
    exact .inl ⟨_, ‹_›, rfl⟩
  · cases hn
    exact .inr ⟨‹_›, _, ‹_›, rfl⟩
  · cases hn

/-- A handler with code behind its Lua call stops at the call, or runs to its end. -/
def StopsOrEnds (s : System) (connected : Bool) (e : Event) (t : System) : Prop :=
  (∃ c, suspending s e = some c ∧ t = { s.call c with frame := some e }) ∨
    suspending s e = none ∧ handlerEnd s connected e = some t

theorem handleNetEvent_dnsFound {t : System} {connected : Bool} {addr : Addr}
    {origin : Option PcbId}
    (hs : handleNetEvent s connected (.dnsFound ud addr origin) = some t) :
    StopsOrEnds s connected (.dnsFound ud addr origin) t := by
  simp only [handleNetEvent] at hs
  split at hs
  · exact .inl ⟨_, ‹_›, (Option.some.inj hs).symm⟩
  · exact .inr ⟨‹_›, hs⟩

theorem handleNetEvent_err {t : System} {connected : Bool} {err : Err}
    (hs : handleNetEvent s connected (.err ud err) = some t) :
    StopsOrEnds s connected (.err ud err) t := by
  simp only [handleNetEvent] at hs
  split at hs
  · exact .inl ⟨_, ‹_›, (Option.some.inj hs).symm⟩
  · exact .inr ⟨‹_›, hs⟩

end

end Esp32Project.Net
