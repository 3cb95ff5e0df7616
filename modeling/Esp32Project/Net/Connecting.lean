import Mathlib.Data.List.Nodup
import Mathlib.Data.List.Perm.Basic
import Esp32Project.Lib.Reach
import Esp32Project.Net.Stable

/-!
Where a client connects. All lookups of a socket come back as the same kind of
event, and whichever is handled while the control block is still CLOSED
connects it.
-/

set_option autoImplicit false

namespace Esp32Project.Net
open Esp32Project.Lib

/-- Every `tcp_connect` has the address that the lookup started for its control
block returned, and there is one at most for each. -/
structure ConnectsOk (s : System) : Prop where
  told : ∀ c ∈ s.log.connects, c.origin = some c.pcb ∧ (some c.pcb, c.ip) ∈ s.log.answers
  found : ∀ c ∈ s.log.connects, c.ip ≠ ipAddrAny
  once : (s.log.connects.map Connect.pcb).Nodup

def connecting (s : System) : Label → Option Connect
  | .handle _ =>
    (nextEvent s).bind fun (e, t) => if (suspending t e).isSome then none else newConnect t e
  | .resume _ => s.frame.bind (newConnect s)
  | _ => none

/-- An answer handled while the control block is CLOSED is that of the lookup
started for this control block, and an address. -/
def ownAnswer (s : System) (a : Label) : Prop :=
  ∀ c ∈ connecting s a, c.origin = some c.pcb ∧ c.ip ≠ ipAddrAny

instance (s : System) (a : Label) : Decidable (ownAnswer s a) := by
  unfold ownAnswer
  infer_instance

def Event.answer : Event → Option (Option PcbId × Addr)
  | .dnsFound _ addr origin => some (origin, addr)
  | _ => none

def Event.origin (e : Event) : Option PcbId := e.answer.bind Prod.fst

def events (s : System) : List Event := s.medium ++ s.high ++ s.frame.toList

/-- How often a control block occurs as the origin of a lookup or an event, or
as connected. -/
def mentions (s : System) (p : PcbId) : Nat :=
  s.lookups.countP (fun l => l.origin = some p) + (events s).countP (fun e => e.origin = some p) +
    s.log.connects.countP (fun c => c.pcb = p)

/-- Each control block is the origin of one lookup, whose answer connects it. -/
structure Traced (s : System) : Prop where
  fresh : ∀ p, s.socks.nextPcb ≤ p → mentions s p = 0
  once : ∀ p, mentions s p ≤ 1
  known : ∀ e ∈ events s, ∀ a ∈ e.answer, a ∈ s.log.answers
  told : ∀ c ∈ s.log.connects, c.origin = some c.pcb ∧ (some c.pcb, c.ip) ∈ s.log.answers
  found : ∀ c ∈ s.log.connects, c.ip ≠ ipAddrAny

section

variable {s t : System} {ud : Ud} {u : Userdata} {e : Event}

theorem Traced.connectsOk (h : Traced s) : ConnectsOk s where
  told := h.told
  found := h.found
  once := by
    rw [List.nodup_iff_count_le_one]
    intro p
    have hone := h.once p
    rw [mentions] at hone
    have hcount : (s.log.connects.map Connect.pcb).count p =
        s.log.connects.countP (fun c => c.pcb = p) := by
      rw [List.count, List.countP_map]
      exact List.countP_congr fun c _ => by simp
    omega

/-- Mentions only move, but for those of a control block just made. -/
theorem Traced.next (h : Traced s) (hn : s.socks.nextPcb ≤ t.socks.nextPcb)
    (hm : ∀ p, mentions t p ≤
      mentions s p + if p = s.socks.nextPcb ∧ s.socks.nextPcb < t.socks.nextPcb then 1 else 0)
    (hk : ∀ e ∈ events t, ∀ a ∈ e.answer, a ∈ t.log.answers)
    (ha : ∀ a ∈ s.log.answers, a ∈ t.log.answers)
    (hc : ∀ c ∈ t.log.connects, c ∈ s.log.connects ∨
      (c.origin = some c.pcb ∧ (some c.pcb, c.ip) ∈ t.log.answers) ∧ c.ip ≠ ipAddrAny) :
    Traced t where
  fresh p hp := by
    have hle := hm p
    rw [h.fresh p (Nat.le_trans hn hp), if_neg] at hle
    · exact Nat.le_zero.mp hle
    · rintro ⟨rfl, hlt⟩
      exact absurd hp (Nat.not_le.mpr hlt)
  once p := by
    have hle := hm p
    split at hle
    · rename_i hp
      rwa [h.fresh p (Nat.le_of_eq hp.1.symm), Nat.zero_add] at hle
    · exact Nat.le_trans hle (h.once p)
  known := hk
  told c hmem := by
    rcases hc c hmem with hold | hnew
    · exact ⟨(h.told c hold).1, ha _ (h.told c hold).2⟩
    · exact hnew.1
  found c hmem := (hc c hmem).elim (h.found c) And.right

theorem Traced.socks (h : Traced s) {x : Sockets} (hx : s.socks.nextPcb ≤ x.nextPcb) :
    Traced { s with socks := x } :=
  h.next hx (fun _ => Nat.le_add_right _ _) h.known (fun _ => id) fun _ => .inl

theorem Traced.fewer (h : Traced s) (hn : t.socks = s.socks) (hl : t.lookups.Sublist s.lookups)
    (he : (events t).Subperm (events s)) (hc : t.log.connects = s.log.connects)
    (ha : t.log.answers = s.log.answers) : Traced t := by
  refine h.next (Nat.le_of_eq (by rw [hn])) (fun p => ?_) (fun e hm => ?_)
    (fun _ => by rw [ha]; exact id) fun c => by rw [hc]; exact .inl
  · rw [mentions, mentions, hc]
    have hle := hl.countP_le (p := fun l => decide (l.origin = some p))
    have hev := he.countP_le (fun e => decide (e.origin = some p))
    omega
  · rw [ha]
    exact h.known e (he.subset hm)

theorem Traced.push (h : Traced s) (hp : (events t).Perm (e :: events s)) (hn : t.socks = s.socks)
    (hl : t.lookups = s.lookups) (hc : t.log.connects = s.log.connects)
    (he : e.answer = none) (ha : t.log.answers = s.log.answers) : Traced t := by
  have horigin : e.origin = none := by simp [Event.origin, he]
  refine h.next (Nat.le_of_eq (by rw [hn])) (fun p => ?_) (fun d hm => ?_)
    (fun _ => by rw [ha]; exact id) fun c => by rw [hc]; exact .inl
  · rw [mentions, mentions, hl, hc, hp.countP_eq, List.countP_cons, horigin]
    exact Nat.le_add_right _ _
  · rw [ha]
    rcases List.mem_cons.mp (hp.mem_iff.mp hm) with rfl | hm
    · simp [he]
    · exact h.known d hm

theorem events_postMedium : (events { s with medium := s.medium ++ [e] }).Perm (e :: events s) := by
  simp only [events, List.append_assoc, List.singleton_append]
  exact List.perm_middle

theorem events_postHigh : (events { s with high := s.high ++ [e] }).Perm (e :: events s) := by
  simp only [events, List.append_assoc, List.singleton_append]
  rw [← List.append_assoc, ← List.append_assoc]
  exact List.perm_middle

theorem events_nextEvent (hn : nextEvent s = some (e, t)) : (events s).Perm (e :: events t) := by
  rcases nextEvent_cases hn with ⟨es, hq, rfl⟩ | ⟨-, es, hq, rfl⟩
  · simp only [events, hq, List.append_assoc, List.cons_append]
    exact List.perm_middle
  · simp [events, hq]

theorem Traced.postMedium (h : Traced s) (he : e.answer = none) (posted : Bool) :
    Traced (s.postMedium e posted) := by
  cases posted with
  | false => exact h
  | true => exact h.push events_postMedium rfl rfl rfl he rfl

theorem Traced.postHigh (h : Traced s) (he : e.answer = none) (posted : Bool) :
    Traced (s.postHigh e posted) := by
  cases posted with
  | false => exact h
  | true => exact h.push events_postHigh rfl rfl rfl he rfl

theorem netDnsCb_mentions (s : System) (ud : Ud) (origin : Option PcbId) (a : Option Addr)
    (posted : Bool) (p : PcbId) :
    mentions (netDnsCb s ud origin a posted) p ≤
      mentions s p + if origin = some p then 1 else 0 := by
  cases posted with
  | false => exact Nat.le_add_right _ _
  | true =>
    have hcount : (events (netDnsCb s ud origin a true)).countP (fun e => e.origin = some p) =
        (events s).countP (fun e => e.origin = some p) + if origin = some p then 1 else 0 := by
      rw [(show (events (netDnsCb s ud origin a true)).Perm
        (.dnsFound ud (a.getD ipAddrAny) origin :: events s) from events_postMedium).countP_eq,
        List.countP_cons]
      by_cases hp : origin = some p <;> simp [Event.origin, Event.answer, hp]
    have hrest : mentions (netDnsCb s ud origin a true) p =
        s.lookups.countP (fun l => l.origin = some p) +
          (events (netDnsCb s ud origin a true)).countP (fun e => e.origin = some p) +
          s.log.connects.countP (fun c => c.pcb = p) := rfl
    rw [hrest, hcount, mentions]
    omega

theorem netDnsCb_known (h : ∀ e ∈ events s, ∀ a ∈ e.answer, a ∈ s.log.answers)
    (origin : Option PcbId) (a : Option Addr) (posted : Bool) :
    ∀ e ∈ events (netDnsCb s ud origin a posted), ∀ x ∈ e.answer,
      x ∈ s.log.answers ++ [(origin, a.getD ipAddrAny)] := by
  intro e he x hx
  cases posted with
  | false => exact List.mem_append_left _ (h e he x hx)
  | true =>
    have hp : (events (netDnsCb s ud origin a true)).Perm
        (.dnsFound ud (a.getD ipAddrAny) origin :: events s) := events_postMedium
    rcases List.mem_cons.mp (hp.mem_iff.mp he) with rfl | he
    · simp only [Event.answer, Option.mem_some_iff] at hx
      simp [← hx]
    · exact List.mem_append_left _ (h e he x hx)

theorem netDnsCb_log (s : System) (ud : Ud) (origin : Option PcbId) (a : Option Addr)
    (posted : Bool) :
    (netDnsCb s ud origin a posted).log.answers = s.log.answers ++ [(origin, a.getD ipAddrAny)] ∧
      (netDnsCb s ud origin a posted).log.connects = s.log.connects := by
  cases posted <;> exact ⟨rfl, rfl⟩

theorem Traced.answer (h : Traced s) {x : Sockets} {origin : Option PcbId}
    (hx : Starts s.socks x origin) (a : Option Addr) (posted : Bool) :
    Traced (netDnsCb { s with socks := x } ud origin a posted) := by
  obtain ⟨hans, hconn⟩ := netDnsCb_log { s with socks := x } ud origin a posted
  refine h.next (by simpa using hx.1.nextPcb) (fun p => ?_) ?_ ?_ ?_
  · refine Nat.le_trans (netDnsCb_mentions _ _ origin a posted p) (Nat.add_le_add_left ?_ _)
    by_cases hp : origin = some p
    · simp [hp, hx.2 p hp]
    · simp [hp]
  · rw [hans]
    exact netDnsCb_known (s := { s with socks := x }) h.known origin a posted
  · rw [hans]
    exact fun _ => List.mem_append_left _
  · rw [hconn]
    exact fun c => .inl

theorem Traced.lookup (h : Traced s) {x : Sockets} {l : Lookup} (hx : Starts s.socks x l.origin) :
    Traced ({ s with socks := x }.lookup l) := by
  refine h.next hx.1.nextPcb (fun p => ?_) h.known (fun _ => id) fun c => .inl
  have hm : mentions ({ s with socks := x }.lookup l) p =
      mentions s p + if l.origin = some p then 1 else 0 := by
    simp only [mentions, System.lookup, events, List.countP_append, List.countP_cons,
      List.countP_nil, decide_eq_true_eq]
    omega
  rw [hm]
  refine Nat.add_le_add_left ?_ _
  by_cases hp : l.origin = some p
  · rw [if_pos hp]
    exact Nat.le_of_eq (if_pos (hx.2 p hp)).symm
  · simp [hp]

theorem Traced.done (h : Traced s) {i : Nat} {l : Lookup} (hl : s.lookups[i]? = some l)
    (a : Option Addr) (posted : Bool) :
    Traced (netDnsCb { s with lookups := s.lookups.eraseIdx i } ud l.origin a posted) := by
  obtain ⟨hans, hconn⟩ :=
    netDnsCb_log { s with lookups := s.lookups.eraseIdx i } ud l.origin a posted
  refine h.next (by simp) (fun p => ?_) ?_ ?_ ?_
  · obtain ⟨hi, rfl⟩ := List.getElem?_eq_some_iff.mp hl
    have hperm := (List.getElem_cons_eraseIdx_perm hi).countP_eq
      (fun l => decide (l.origin = some p))
    rw [List.countP_cons] at hperm
    have hle := netDnsCb_mentions { s with lookups := s.lookups.eraseIdx i } ud
      s.lookups[i].origin a posted p
    refine Nat.le_trans (Nat.le_trans hle ?_) (Nat.le_add_right _ _)
    simp only [mentions, events, decide_eq_true_eq] at hperm ⊢
    omega
  · rw [hans]
    exact netDnsCb_known (s := { s with lookups := s.lookups.eraseIdx i }) h.known l.origin a posted
  · rw [hans]
    exact fun _ => List.mem_append_left _
  · rw [hconn]
    exact fun c => .inl

theorem plain_answer (he : e.plain = true) : e.answer = none := by
  cases e with
  | dnsFound ud addr origin => cases he
  | _ => rfl

theorem traced_stable : Stable Traced where
  socks hx h := h.socks hx.nextPcb
  post he h := h.postMedium (plain_answer he) true
  call _ h := h.fewer rfl (.refl _) (.refl _) rfl rfl
  record h := h.fewer rfl (.refl _) (.refl _) rfl rfl
  lookup hx h := h.lookup hx
  answer hx h := h.answer hx _ _
  done hl h := h.done hl _ _
  forget h := h.fewer rfl (List.eraseIdx_sublist _ _) (.refl _) rfl rfl
  tcpData {s ud u p posted} _ _ h := by
    have h' : Traced { s with nextPbuf := s.nextPbuf + 1 } :=
      h.fewer rfl (.refl _) (.refl _) rfl rfl
    have h'' := h'.postHigh (e := .recvData ud p.first none) rfl posted
    unfold tcpRecvData
    dsimp only
    split <;> exact h''.fewer rfl (.refl _) (.refl _) rfl rfl
  udpData {s ud u p addr port posted} _ h := by
    have h' : Traced { s with nextPbuf := s.nextPbuf + 1 } :=
      h.fewer rfl (.refl _) (.refl _) rfl rfl
    unfold netUdpRecvCb
    dsimp only
    split
    · exact h'.fewer rfl (.refl _) (.refl _) rfl rfl
    · exact h'.postHigh rfl posted
  accept h := h.fewer rfl (.refl _) (.refl _) rfl rfl

theorem newConnect_answer {c : Connect} (hc : newConnect s e = some c) :
    e.answer = some (c.origin, c.ip) := by
  cases e with
  | dnsFound ud addr origin =>
    obtain ⟨p, -, rfl⟩ := Option.map_eq_some_iff.mp hc
    rfl
  | _ => cases hc

/-- The end of a handler whose event is in `frame`, or as good as there: the
mention of the control block goes from the event to the connect. -/
theorem traced_handlerEnd {connected : Bool} (h : Traced { s with frame := some e })
    (hf : s.frame = none) (hk : ∀ c ∈ newConnect s e, c.origin = some c.pcb ∧ c.ip ≠ ipAddrAny)
    (hs : handlerEnd s connected e = some t) : Traced t := by
  obtain ⟨x, hx, rfl⟩ := handlerEnd_connects hs
  have hev : events { s with frame := some e } = events s ++ [e] := by simp [events, hf]
  have hknown := h.known
  rw [hev] at hknown
  refine h.next hx.nextPcb (fun p => ?_) (fun d hd => hknown d (List.mem_append_left _ hd))
    (fun _ => id) fun c hc => ?_
  · refine Nat.le_trans ?_ (Nat.le_add_right _ _)
    have hmoved : (newConnect s e).toList.countP (fun c => c.pcb = p) ≤
        [e].countP (fun e => e.origin = some p) := by
      cases hc : newConnect s e with
      | none => exact Nat.zero_le _
      | some c =>
        have horigin : e.origin = some c.pcb := by
          rw [Event.origin, newConnect_answer hc]
          exact (hk c hc).1
        simp [List.countP_cons, horigin]
    have hframe : mentions { s with frame := some e } p =
        s.lookups.countP (fun l => l.origin = some p) +
          (events s ++ [e]).countP (fun e => e.origin = some p) +
          s.log.connects.countP (fun c => c.pcb = p) := by
      rw [← hev]
      rfl
    have hend : ∀ cs, mentions { s with socks := x, log := { s.log with connects := cs } } p =
        s.lookups.countP (fun l => l.origin = some p) +
          (events s).countP (fun e => e.origin = some p) + cs.countP (fun c => c.pcb = p) :=
      fun _ => rfl
    rw [hframe, hend, List.countP_append, List.countP_append]
    omega
  · rcases List.mem_append.mp hc with hc | hc
    · exact .inl hc
    · have hnew : newConnect s e = some c := by simpa using hc
      have hans := hknown e (by simp) _ (newConnect_answer hnew)
      have hown := hk c hnew
      rw [hown.1] at hans
      exact .inr ⟨⟨hown.1, hans⟩, hown.2⟩

theorem newConnect_frame (frame : Option Event) :
    newConnect { s with frame } = newConnect s := by
  funext e
  cases e <;> rfl

theorem traced_step {a : Label} (h : Traced s) (hk : ownAnswer s a) (hs : step s a = some t) :
    Traced t := by
  refine traced_stable.step h hs (fun c ha => ?_) (fun c ha => ?_)
  · subst ha
    simp only [step] at hs
    split at hs
    · rename_i hf
      obtain ⟨⟨e, r⟩, hn, hs⟩ := Option.bind_eq_some_iff.mp hs
      have hrest : r.lookups = s.lookups ∧ r.log = s.log ∧ r.socks = s.socks ∧ r.frame = none := by
        rcases nextEvent_cases hn with ⟨es, -, rfl⟩ | ⟨-, es, -, rfl⟩ <;> exact ⟨rfl, rfl, rfl, hf⟩
      obtain ⟨hl, hlog, hsock, hrf⟩ := hrest
      have hperm := events_nextEvent hn
      -- the event may be thought of as in the frame already
      have hheld : Traced { r with frame := some e } := by
        have hev : (events { r with frame := some e }).Perm (events s) := by
          refine List.Perm.trans ?_ hperm.symm
          simp only [events, hrf, Option.toList_some, Option.toList_none, List.append_nil]
          exact List.perm_append_singleton _ _
        exact h.fewer hsock (by rw [hl]) hev.subperm (by rw [hlog]) (by rw [hlog])
      have hr : Traced r := by
        refine h.fewer hsock (by rw [hl]) ?_ (by rw [hlog]) (by rw [hlog])
        exact (List.sublist_cons_self _ _).subperm.trans hperm.symm.subperm
      refine traced_stable.handled hr hs ?_ ?_ ?_ (fun hnone hs => ?_)
      · rintro ud payload src rfl
        obtain ⟨u, -, rfl⟩ := Option.map_eq_some_iff.mp hs
        split <;> exact hr.fewer rfl (.refl _) (.refl _) rfl rfl
      · rintro ud newpcb rfl
        obtain ⟨u, -, hs⟩ := Option.bind_eq_some_iff.mp hs
        obtain ⟨x, b, c, hx, -, rfl⟩ := lacceptCb_bound hs
        exact (hr.socks hx.nextPcb).fewer rfl (.refl _) (.refl _) rfl rfl
      · rintro c - rfl
        exact hheld.fewer rfl (.refl _) (.refl _) rfl rfl
      · refine traced_handlerEnd hheld hrf (fun c hc => hk c ?_) hs
        simpa [connecting, hn, hnone] using hc
    · cases hs
  · subst ha
    obtain ⟨e, hf, hs⟩ := Option.bind_eq_some_iff.mp hs
    refine traced_handlerEnd (s := { s with frame := none }) ?_ rfl (fun c hc => hk c ?_) hs
    · rwa [← hf]
    · rw [newConnect_frame] at hc
      simpa [connecting, hf] using hc

theorem traced_init : Traced .init where
  fresh _ _ := rfl
  once _ := Nat.zero_le _
  known e he := by simp [events, System.init] at he
  told c hc := by simp [System.init] at hc
  found c hc := by simp [System.init] at hc

theorem connecting_logged {a : Label} {c : Connect} (hs : step s a = some t)
    (hc : connecting s a = some c) : c ∈ t.log.connects := by
  cases a with
  | handle connected =>
    simp only [step] at hs
    split at hs
    · obtain ⟨⟨e, r⟩, hn, hs⟩ := Option.bind_eq_some_iff.mp hs
      simp only [connecting, hn, Option.bind_some] at hc
      split at hc
      · cases hc
      · rename_i hsusp
        have hnone : suspending r e = none := by simpa using hsusp
        have hend : handlerEnd r connected e = some t := by
          cases e <;> first
            | cases hc
            | simpa [handleNetEvent, hnone] using hs
        obtain ⟨x, -, rfl⟩ := handlerEnd_connects hend
        simp [hc]
    · cases hs
  | resume connected =>
    obtain ⟨e, hf, hs⟩ := Option.bind_eq_some_iff.mp hs
    simp only [connecting, hf, Option.bind_some] at hc
    obtain ⟨x, -, rfl⟩ := handlerEnd_connects hs
    rw [newConnect_frame]
    simp [hc]
  | _ => cases hc

end

/-- Along every run that connects only with the own answer of a control block,
each is connected where it was told and once at most, and a step leaves it so
exactly when it meets the condition. -/
theorem connectsOk_of_ownAnswer (s : System) (h : Reach step ownAnswer .init s) :
    ConnectsOk s ∧ ∀ a s', step s a = some s' → (ConnectsOk s' ↔ ownAnswer s a) := by
  have ht : Traced s := h.invariant Traced traced_init fun _ _ _ => traced_step
  refine ⟨ht.connectsOk, fun a s' hs =>
    ⟨fun hok c hc => ?_, fun hk => (traced_step ht hk hs).connectsOk⟩⟩
  have hmem := connecting_logged hs hc
  exact ⟨(hok.told c hmem).1, hok.found c hmem⟩

def lookups : List Label :=
  [.createConnection none none,
    .api 0 (.connect 80 (some "host") ⟨true, .inProgress, 0, true⟩),
    .api 0 (.dns "other" (some 3) ⟨true, .inProgress, 0, true⟩)]

/-- The answers come in the order of the calls. -/
theorem connectsOk_of_ownAnswer_lookups :
    ∃ s, runScript step (fun s a => decide (ownAnswer s a)) .init
        (lookups ++ [.dnsDone 0 (some 7) true, .handle true, .resume true,
          .dnsDone 0 (some 9) true, .handle true, .resume true]) = some s ∧ ConnectsOk s := by
  obtain ⟨s, hs⟩ : ∃ s, runScript step (fun s a => decide (ownAnswer s a)) .init
      (lookups ++ [.dnsDone 0 (some 7) true, .handle true, .resume true,
        .dnsDone 0 (some 9) true, .handle true, .resume true]) = some s :=
    Option.isSome_iff_exists.mp (by decide +kernel)
  exact ⟨s, hs, (connectsOk_of_ownAnswer s (reach_of_script (fun _ _ => of_decide_eq_true) hs)).1⟩

/-- The other lookup is answered first and connects the client to its address;
and a host that is not found connects it to no address at all. -/
theorem connects_elsewhere :
    (∃ s, Reach step (fun _ _ => True) .init s ∧ s.log.connects = [⟨0, 9, none⟩] ∧
      s.log.answers = [(none, 9)] ∧ ¬ ConnectsOk s) ∧
    ∃ s, Reach step (fun _ _ => True) .init s ∧ s.log.connects = [⟨0, ipAddrAny, some 0⟩] ∧
      ¬ ConnectsOk s := by
  constructor
  · have hrun : (runScript step (fun _ _ => true) .init
        (lookups ++ [.dnsDone 1 (some 9) true, .handle true, .resume true])).map
        (fun s => (s.log.connects, s.log.answers)) = some ([⟨0, 9, none⟩], [(none, 9)]) := by
      decide +kernel
    obtain ⟨s, hs, hv⟩ := Option.map_eq_some_iff.mp hrun
    simp only [Prod.mk.injEq] at hv
    refine ⟨s, reach_of_script (fun _ _ _ => trivial) hs, hv.1, hv.2, fun hok => ?_⟩
    have htold := hok.told ⟨0, 9, none⟩ (by simp [hv.1])
    cases htold.1
  · have hrun : (runScript step (fun _ _ => true) .init
        (lookups ++ [.dnsDone 0 none true, .handle true, .resume true])).map
        (fun s => s.log.connects) = some [⟨0, ipAddrAny, some 0⟩] := by decide +kernel
    obtain ⟨s, hs, hv⟩ := Option.map_eq_some_iff.mp hrun
    refine ⟨s, reach_of_script (fun _ _ _ => trivial) hs, hv, fun hok => ?_⟩
    exact hok.found ⟨0, ipAddrAny, some 0⟩ (by simp [hv]) rfl

end Esp32Project.Net
