import Esp32Project.Net.Lifetime
import Esp32Project.Net.Waiting

/-!
The count over whole runs. The handler of an answer lowers it, and the answer is
no longer waited for. An answer that is lost stays in the count for good.
-/

set_option autoImplicit false

namespace Esp32Project.Net
open Esp32Project.Lib

section

variable {C : Ud → Prop} {s t : System} {ud : Ud} {u : Userdata} {e : Event}

theorem dnsDone_counted (h : Counted C s) {i : Nat} {ipaddr : Option Addr} {posted : Bool}
    {l : Lookup} (hl : s.lookups[i]? = some l) (hk : ¬ losesAnswer s (.dnsDone i ipaddr posted)) :
    Counted C (dnsDone { s with lookups := s.lookups.eraseIdx i } l ipaddr posted) := by
  have hcount := view_eraseIdx hl
  have hanswers : ∀ d, (view s d).answers =
      (view { s with lookups := s.lookups.eraseIdx i } d).answers +
        if l.arg = .sock d then 1 else 0 := by
    intro d
    have hd := hcount d
    simp only [view] at hd
    simp only [View.answers, View.inDns, view, hd]
    omega
  unfold dnsDone
  cases harg : l.arg with
  | sock ud =>
    have hposted : posted = true := by
      by_contra hf
      exact hk ⟨by simpa using hf, l, ud, hl, harg⟩
    refine h.congr (by simp) (by simp) ⟨fun d => ?_, fun hh => ?_⟩
    · rw [netDnsCb_answers, hanswers d, harg, hposted]
      by_cases hd : d = ud
      · simp [hd]
      · have hne : ud ≠ d := fun he => hd he.symm
        simp [hd, hne]
    · rw [netDnsCb_high]
      exact hh
  | record record cb =>
    have hforget : SameAnswers s { s with lookups := s.lookups.eraseIdx i } :=
      ⟨fun d => by rw [hanswers d, harg, if_neg (by simp), Nat.add_zero], id⟩
    simp only [netDnsStaticCb]
    split
    · exact h.congr (by simp) (by simp) (hforget.trans (postMedium_sameAnswers rfl posted))
    · exact h.congr rfl rfl (hforget.trans (sameAnswers_of_view rfl rfl))

theorem netDnsStatic_counted (h : Counted C s) (domain : String) (fn : Except String Fn)
    (alloc : Bool) (a : Answer) : Counted C (netDnsStatic s domain fn alloc a) := by
  unfold netDnsStatic
  split
  · exact h.congr rfl rfl (sameAnswers_of_view rfl rfl)
  have hrecord : SameAnswers s { s with nextRecord := s.nextRecord + 1 } :=
    sameAnswers_of_view rfl rfl
  cases fn with
  | error got => exact h.congr rfl rfl (sameAnswers_of_view rfl rfl)
  | ok cb =>
    dsimp only
    split
    · unfold netDnsStaticCb
      split
      · exact h.congr (by simp) (by simp) (hrecord.trans (postMedium_sameAnswers rfl a.posted))
      · exact h.congr rfl rfl (sameAnswers_of_view rfl rfl)
    split
    · refine h.congr rfl rfl (sameAnswers_of_view ?_ rfl)
      funext d
      simp [System.lookup, view, Lookup.names]
    · exact h.congr (by simp [System.checkerr]) (by simp [System.checkerr])
        (sameAnswers_of_view rfl rfl)

theorem Counted.create (h : Counted C s) (hu : s.socks.uds ud = none)
    (huds : t.socks.uds = Function.update s.socks.uds ud (some u))
    (hnext : s.socks.nextUd ≤ t.socks.nextUd) (hud : ud < t.socks.nextUd) (hs : SameAnswers s t)
    (hw : u.waitDns = 0) (hr : u.pcb = none → u.selfRef = false) : Counted (Still C t) t where
  each d v hv := by
    rw [huds] at hv
    by_cases hd : d = ud
    · subst hd
      rw [Function.update_self] at hv
      obtain rfl := Option.some.inj hv
      have hnone := (hs.answers d).trans (h.gone d hu)
      refine ⟨by rw [hw, hnone]; rfl, fun hn => absurd hw hn, fun _ => hw, fun hc => ?_⟩
      have hp : u.pcb = none := hc.2 u (by rw [huds, Function.update_self])
      exact ⟨hp, fun _ => hr hp⟩
    · rw [Function.update_of_ne hd] at hv
      exact ((h.each d v hv).congr (hs.answers d)).mono And.left
  gone d hv := by
    rw [huds] at hv
    by_cases hd : d = ud
    · subst hd
      simp at hv
    · rw [Function.update_of_ne hd] at hv
      exact (hs.answers d).trans (h.gone d hv)
  high := hs.high h.high
  fresh d hd := by
    have hne : d ≠ ud := Nat.ne_of_gt (Nat.lt_of_lt_of_le hud hd)
    rw [huds, Function.update_of_ne hne]
    exact h.fresh d (Nat.le_trans hnext hd)

theorem netCreate_counted (h : Counted C s) (type : NetType) (junk : Option Fn) :
    Counted (Still C { s with socks := netCreate s.socks type junk })
      { s with socks := netCreate s.socks type junk } :=
  h.create (h.fresh _ (Nat.le_refl _)) rfl (Nat.le_succ _) (Nat.lt_succ_self _)
    (sameAnswers_of_view rfl rfl) rfl fun _ => rfl

theorem raise_counted (h : Counted C s) (text : String) :
    Counted (Still C { s with socks := s.socks.raise text })
      { s with socks := s.socks.raise text } := by
  have h' : Counted C { s with socks := s.socks.raise text } :=
    h.congr rfl rfl (sameAnswers_of_view rfl rfl)
  exact h'.still

theorem netCreateServer_counted (h : Counted C s) (type : Option Int) (junk : Option Fn) :
    Counted (Still C { s with socks := netCreateServer s.socks type junk })
      { s with socks := netCreateServer s.socks type junk } := by
  unfold netCreateServer netCreateUDPSocket
  dsimp only
  split
  · exact netCreate_counted h _ _
  split
  · exact raise_counted h _
  · exact netCreate_counted h _ _

theorem netCreateConnection_counted (h : Counted C s) (type secure : Option Int) :
    Counted (Still C { s with socks := netCreateConnection s.socks type secure })
      { s with socks := netCreateConnection s.socks type secure } := by
  unfold netCreateConnection netCreateUDPSocket
  dsimp only
  split
  · exact netCreate_counted h _ _
  split
  · exact raise_counted h _
  split
  · exact raise_counted h _
  · exact netCreate_counted h _ _

theorem netDelete_counted (h : Counted C s) (hu : s.socks.uds ud = some u)
    (hr : u.selfRef = false) : Counted C { s with socks := netDelete s.socks ud u } := by
  obtain ⟨pcbs, hdel⟩ := netDelete_same s.socks ud u
  rw [hdel]
  refine ⟨fun d v hv => ?_, fun d hv => ?_, h.high, fun d hd => ?_⟩
  · by_cases hn : d = ud
    · simp [hn] at hv
    · exact h.each d v (by simpa [hn] using hv)
  · by_cases hn : d = ud
    · subst hn
      have hc := h.each d u hu
      have hw : u.waitDns = 0 := by
        by_contra hw
        rw [hc.anchored hw] at hr
        cases hr
      have := hc.counted
      change (view s d).answers = 0
      omega
    · exact h.gone d (by simpa [hn] using hv)
  · by_cases hn : d = ud
    · simp [hn]
    · simpa [hn] using h.fresh d hd

end

section

variable {C : Ud → Prop} {s t : System} {ud : Ud} {u : Userdata} {e : Event}

theorem nextEvent_counted (h : Counted C s) (hf : s.frame = none) (hn : nextEvent s = some (e, t))
    {frame : Option Event} (hframe : frame = none ∧ e.isDns = false ∨ frame = some e) :
    Counted C { t with frame } := by
  have hdns : ∀ d, (e.ud = some d → (frame.filter (Event.names d)).filter Event.isDns =
      if e.isDns then some e else none) ∧
      (e.ud ≠ some d → frame.filter (Event.names d) = none) := by
    intro d
    rcases hframe with ⟨rfl, hd⟩ | rfl
    · simp [hd]
    · refine ⟨fun hd => ?_, fun hd => by simp [Option.filter, hd]⟩
      cases he : e.isDns <;> simp [Option.filter, hd, he]
  rcases nextEvent_cases hn with ⟨es, hq, rfl⟩ | ⟨-, es, hq, rfl⟩
  · have he : e.isDns = false := h.high e (by simp [hq])
    refine h.congr rfl rfl ⟨fun d => ?_, fun hh d hd => hh d (by simp [hq, hd])⟩
    by_cases hd : e.ud = some d
    · simp [View.answers, View.inDns, view, hf, (hdns d).1 hd, he]
    · simp [View.answers, View.inDns, view, hf, (hdns d).2 hd]
  · refine h.congr rfl rfl ⟨fun d => ?_, id⟩
    by_cases hd : e.ud = some d
    · simp only [View.answers, View.inDns, view, hf, hq, (hdns d).1 hd, Option.filter_none,
        List.filter_cons, names_iff, hd, if_true, List.countP_cons]
      cases e.isDns <;> simp
      omega
    · simp [View.answers, View.inDns, view, hf, hq, (hdns d).2 hd, names_iff, hd]

theorem leave_answers (hf : s.frame = some e) (d : Ud) :
    (view s d).answers = (view { s with frame := none } d).answers +
      if e.ud = some d ∧ e.isDns = true then 1 else 0 := by
  by_cases hd : e.ud = some d
  · cases he : e.isDns <;>
      simp [View.answers, View.inDns, view, hf, Option.filter, Event.names, hd, he]
  · simp [View.answers, View.inDns, view, hf, Option.filter, Event.names, hd]

theorem ldnsfoundEnd_counted {addr : Addr} {origin : Option PcbId} {connected : Bool}
    (h : Counted C s) (hf : s.frame = some (.dnsFound ud addr origin))
    (hu : s.socks.uds ud = some u)
    (hs : ldnsfoundEnd { s with frame := none } ud u addr origin connected = some t) :
    Counted (Still C t) t := by
  have hleave := leave_answers hf
  have hend : ∀ {r : System} (u' : Userdata), Sets s.socks r.socks ud u' →
      view r = view { s with frame := none } → r.high = s.high → u'.type = u.type →
      u'.pcb = u.pcb → u'.waitDns = u.waitDns - 1 →
      u'.selfRef = (if u.pcb = none ∧ u'.waitDns = 0 then false else u.selfRef) →
      Counted (Still C r) r := by
    intro r u' hx hview hhigh ht hp hw hr
    refine h.update hu hx (fun _ _ => id) (fun d hd => ?_) (by rw [hhigh]; exact h.high) ?_
    · rw [hleave d, hview, if_neg, Nat.add_zero]
      rintro ⟨he, -⟩
      exact hd (Option.some.inj he).symm
    · have hone := hleave ud
      rw [if_pos ⟨rfl, rfl⟩] at hone
      rw [hview]
      exact ((h.each ud u hu).unwait ht hp hw hone hr).mono And.left
  unfold ldnsfoundEnd at hs
  dsimp only at hs
  split at hs
  · rename_i p hp
    split at hs
    · obtain ⟨b, -, rfl⟩ := Option.map_eq_some_iff.mp hs
      split
      · exact hend { u with waitDns := u.waitDns - 1 } ⟨rfl, rfl, Nat.le_refl _⟩ rfl rfl
          rfl rfl rfl (by simp [hp])
      · exact hend { u with waitDns := u.waitDns - 1 } ⟨rfl, rfl, Nat.le_refl _⟩ rfl rfl
          rfl rfl rfl (by simp [hp])
    · cases hs
      exact hend { u with waitDns := u.waitDns - 1 } ⟨rfl, rfl, Nat.le_refl _⟩ rfl rfl
        rfl rfl rfl (by simp [hp])
  · rename_i hp
    split at hs
    · rename_i hw
      cases hs
      exact hend { u with waitDns := u.waitDns - 1, selfRef := false }
        ⟨rfl, rfl, Nat.le_refl _⟩ rfl rfl rfl rfl rfl (by rw [if_pos ⟨hp, hw⟩])
    · rename_i hw
      cases hs
      exact hend { u with waitDns := u.waitDns - 1 } ⟨rfl, rfl, Nat.le_refl _⟩ rfl rfl
        rfl rfl rfl (by rw [if_neg fun hc => hw hc.2])

theorem lerrEnd_counted {err : Err} (h : Counted C s) (hf : s.frame = some (.err ud err))
    (hu : s.socks.uds ud = some u) :
    Counted (Still C (lerrEnd { s with frame := none } ud u))
      (lerrEnd { s with frame := none } ud u) := by
  have hleave : SameAnswers s { s with frame := none } := by
    refine ⟨fun d => ?_, id⟩
    rw [leave_answers hf d, if_neg (by simp [Event.isDns]), Nat.add_zero]
  unfold lerrEnd
  split
  · rename_i hw
    exact h.turn hu ⟨rfl, rfl, Nat.le_refl _⟩ (hleave.trans (sameAnswers_of_view rfl rfl))
      (((h.each ud u hu).drop hw).mono And.left)
  · have h' : Counted C { s with frame := none } := h.congr rfl rfl hleave
    exact h'.still

theorem handlerEnd_counted {connected : Bool} (h : Counted C s) (hf : s.frame = some e)
    (hs : handlerEnd { s with frame := none } connected e = some t) : Counted (Still C t) t := by
  unfold handlerEnd at hs
  split at hs
  · obtain ⟨u, hu, hs⟩ := Option.bind_eq_some_iff.mp hs
    exact ldnsfoundEnd_counted h hf hu hs
  · obtain ⟨u, hu, rfl⟩ := Option.map_eq_some_iff.mp hs
    exact lerrEnd_counted h hf hu
  · cases hs

theorem lacceptCb_counted {newpcb : PcbId} (h : Counted C s)
    (hs : lacceptCb s ud u newpcb = some t) : Counted (Still C t) t := by
  unfold lacceptCb at hs
  split at hs
  · obtain ⟨n, hn, rfl⟩ := Option.map_eq_some_iff.mp hs
    have hw : n.waitDns = 0 := by
      simp only [netCreate, Sockets.setUd, Function.update_self, Option.some.injEq] at hn
      rw [← hn]
    refine h.create (u := { n with selfRef := true, pcb := some newpcb })
      (h.fresh _ (Nat.le_refl _)) ?_ (Nat.le_succ _) (Nat.lt_succ_self _)
      (sameAnswers_of_view rfl rfl) hw (fun hp => by cases hp)
    simp [System.call, netCreate, Sockets.setUd, Sockets.setPcb]
  · cases hs

theorem handleNetEvent_counted {connected : Bool} (h : Counted C s) (hf : s.frame = none)
    (hn : nextEvent s = some (e, t)) {s' : System}
    (hs : handleNetEvent t connected e = some s') : Counted (Still C s') s' := by
  have hframe : t.frame = none := by
    rcases nextEvent_cases hn with ⟨es, -, rfl⟩ | ⟨-, es, -, rfl⟩ <;> exact hf
  have hself : { t with frame := none } = t := by rw [← hframe]
  have hpop : e.isDns = false → Counted C t := fun hd =>
    hself ▸ nextEvent_counted h hf hn (.inl ⟨rfl, hd⟩)
  -- handled at once, it is as if the handler were suspended and then resumed
  have hsusp : StopsOrEnds t connected e s' → Counted (Still C s') s' := by
    intro hs
    have hheld := nextEvent_counted h hf hn (.inr rfl)
    rcases hs with ⟨c, -, rfl⟩ | ⟨-, hend⟩
    · have hcall : Counted C { t.call c with frame := some e } :=
        hheld.congr rfl rfl (sameAnswers_of_view rfl rfl)
      exact hcall.still
    · exact handlerEnd_counted hheld rfl (hself.symm ▸ hend)
  have hcall : e.isDns = false → ∀ r, SameAnswers t r → r.socks = t.socks →
      Counted (Still C r) r := fun hd r hr hx =>
    ((hpop hd).congr (by rw [hx]) (by rw [hx]) hr).still
  cases e with
  | dnsFound ud addr origin => exact hsusp (handleNetEvent_dnsFound hs)
  | err ud err => exact hsusp (handleNetEvent_err hs)
  | dnsStatic record cb addr =>
    cases hs
    exact hcall rfl _ (sameAnswers_of_view rfl rfl) rfl
  | connected ud =>
    obtain ⟨u, -, rfl⟩ := Option.map_eq_some_iff.mp hs
    exact hcall rfl _ (callAny_traffic _).sameAnswers (by simp)
  | accept ud newpcb =>
    obtain ⟨u, -, hs⟩ := Option.bind_eq_some_iff.mp hs
    exact lacceptCb_counted (hpop rfl) hs
  | recvData ud payload src =>
    obtain ⟨u, -, rfl⟩ := Option.map_eq_some_iff.mp hs
    split <;> exact hcall rfl _ (sameAnswers_of_view rfl rfl) rfl
  | sentData ud newpcb =>
    obtain ⟨u, -, rfl⟩ := Option.map_eq_some_iff.mp hs
    exact hcall rfl _ (callAny_traffic _).sameAnswers (by simp)

end

theorem counted_init (C : Ud → Prop) : Counted C .init where
  each _ _ hu := by cases hu
  gone _ _ := rfl
  high _ he := by cases he
  fresh _ _ := rfl

theorem counted_step {C : Ud → Prop} {s t : System} {a : Label} (h : Counted C s)
    (hk : ¬ losesAnswer s a) (hs : step s a = some t) :
    Counted (Still (fun d => closes s a = some d ∨ C d) t) t := by
  have hstill : closes s a = none → Counted (Still C t) t →
      Counted (Still (fun d => closes s a = some d ∨ C d) t) t := fun hc ht =>
    ht.mono fun d hd => ⟨hd.1.resolve_left (by simp [hc]), hd.2⟩
  cases a with
  | createUDPSocket =>
    cases hs
    exact hstill rfl (netCreate_counted h _ _)
  | createServer type junk =>
    cases hs
    exact hstill rfl (netCreateServer_counted h type junk)
  | createConnection type secure =>
    cases hs
    exact hstill rfl (netCreateConnection_counted h type secure)
  | api ud c =>
    obtain ⟨u, hu, rfl⟩ := Option.map_eq_some_iff.mp hs
    exact apiCall_counted h hu c hk
  | resolve domain fn alloc a =>
    cases hs
    exact hstill rfl (netDnsStatic_counted h domain fn alloc a).still
  | gc ud =>
    obtain ⟨u, hu, hs⟩ := Option.bind_eq_some_iff.mp hs
    split at hs
    · cases hs
    · rename_i hr
      cases hs
      exact hstill rfl (netDelete_counted h hu (by simpa using hr)).still
  | lwip p c =>
    obtain ⟨b, -, hs⟩ := Option.bind_eq_some_iff.mp hs
    split at hs
    · split at hs
      · cases hs
        exact hstill rfl h.still
      · obtain ⟨u, hu, rfl⟩ := Option.map_eq_some_iff.mp hs
        exact hstill rfl ((callback_told hu p c).counted hu h)
    · cases hs
  | dnsDone i ipaddr posted =>
    obtain ⟨l, hl, rfl⟩ := Option.map_eq_some_iff.mp hs
    exact hstill rfl (dnsDone_counted h hl hk).still
  | handle connected =>
    simp only [step] at hs
    split at hs
    · rename_i hf
      obtain ⟨⟨e, r⟩, hn, hs⟩ := Option.bind_eq_some_iff.mp hs
      exact hstill rfl (handleNetEvent_counted h hf hn hs)
    · cases hs
  | resume connected =>
    obtain ⟨e, hf, hs⟩ := Option.bind_eq_some_iff.mp hs
    exact hstill rfl (handlerEnd_counted h hf hs)

section

variable {C : Ud → Prop} {s t : System} {a : Label}

theorem Counted.waits {w : Watched} (h : Counted (· ∈ w.closed) w.sys) : WaitsAll w := by
  intro ud u hu
  have hc := h.each ud u hu
  have hcount := hc.counted
  exact ⟨fun _ => hcount, fun _ => by omega, fun hm ha => (hc.released hm).2 (by omega)⟩

/-- A socket counts more than what comes back. -/
def Overcounted (t : System) : Prop :=
  ∃ ud u, t.socks.uds ud = some u ∧ u.type ≠ .tcpServer ∧ u.waitDns = (view t ud).answers + 1

theorem losesAnswer_over (h : Counted C s) (hk : losesAnswer s a) :
    ∃ t, step s a = some t ∧ Overcounted t := by
  cases a with
  | api ud c =>
    cases c with
    | connect port domain a =>
      obtain ⟨⟨herr, hposted⟩, u, hu, ht, hp, hport, hpcb⟩ := hk
      refine ⟨_, by simp only [step, hu, Option.map_some]; rfl, ud, ?_⟩
      simp only [apiCall, netConnect, ht, hp, hport, hpcb, herr, hposted, ne_eq, not_true_eq_false,
        Bool.not_true, Bool.false_eq_true, if_false, if_true]
      refine ⟨_, Function.update_self .., by simp, ?_⟩
      have hcount := (h.each ud u hu).counted
      rw [netDnsCb_answers, if_neg (by simp)]
      exact congrArg (· + 1) hcount
    | dns domain fn a =>
      obtain ⟨⟨herr, hposted⟩, u, hu, ht, hcb⟩ := hk
      refine ⟨_, by simp only [step, hu, Option.map_some]; rfl, ud, ?_⟩
      simp only [apiCall, netDns, ht, hcb, herr, hposted, if_false, if_true]
      refine ⟨_, Function.update_self .., by simpa using ht, ?_⟩
      have hcount := (h.each ud u hu).counted
      rw [netDnsCb_answers, if_neg (by simp)]
      exact congrArg (· + 1) hcount
    | _ => exact hk.elim
  | dnsDone i ipaddr posted =>
    obtain ⟨hposted, l, ud, hl, harg⟩ := hk
    refine ⟨_, by simp only [step, hl, Option.map_some]; rfl, ud, ?_⟩
    have hone := view_eraseIdx hl ud
    rw [harg, if_pos rfl] at hone
    have hanswers : (view s ud).answers =
        (view { s with lookups := s.lookups.eraseIdx i } ud).answers + 1 := by
      simp only [view] at hone
      simp only [View.answers, View.inDns, view, hone]
      omega
    cases hu : s.socks.uds ud with
    | none =>
      have := h.gone ud hu
      omega
    | some u =>
      have hc := h.each ud u hu
      have hcount := hc.counted
      simp only [dnsDone, harg, hposted]
      refine ⟨u, by simpa using hu, fun hs => ?_, ?_⟩
      · have := hc.server hs
        omega
      · rw [netDnsCb_answers]
        simp
        omega
  | _ => exact hk.elim

end

/-- In a run `wait_dns` is right after every step exactly as long as no answer is lost. -/
theorem waitDns_along_iff (as : List Label) :
    Along Watched.step (fun w a => ∀ w', w.step a = some w' → WaitsAll w') ⟨.init, []⟩ as ↔
      Along Watched.step (fun w a => ¬ losesAnswer w.sys a) ⟨.init, []⟩ as := by
  have hstep : ∀ (w : Watched) a w', Counted (· ∈ w.closed) w.sys → ¬ losesAnswer w.sys a →
      w.step a = some w' → Counted (· ∈ w'.closed) w'.sys := by
    intro w a w' h hk hs
    obtain ⟨t, ht, rfl⟩ := Option.map_eq_some_iff.mp hs
    refine (counted_step h hk ht).mono fun d hd => ?_
    obtain ⟨hm, hp⟩ := List.mem_filter.mp hd
    exact ⟨by simpa using hm, fun u hu => by simpa [unopened, hu] using hp⟩
  refine along_iff (fun w => Counted (· ∈ w.closed) w.sys) (fun w a h => ⟨fun hp hk => ?_,
    fun hk w' hs => (hstep w a w' h hk hs).waits⟩) hstep (counted_init _) as
  obtain ⟨t, ht, ud, u, hu, htype, hover⟩ := losesAnswer_over h hk
  have hwaits := hp _ (Option.map_eq_some_iff.mpr ⟨t, ht, rfl⟩) ud u hu
  have hcount : u.waitDns = (view t ud).answers := hwaits.counted htype
  omega

/-- The event of the only answer finds no room. The socket is closed, waits on
and stays anchored. -/
theorem lost_answer_keeps_anchor :
    ∃ w, Reach Watched.step (fun _ _ => True) ⟨.init, []⟩ w ∧ ¬ WaitsAll w ∧
      w.closed = [0] ∧ (view w.sys 0).answers = 0 ∧
      (w.sys.socks.uds 0).map (fun u => (u.waitDns, u.selfRef)) = some (1, true) := by
  have hrun : (runScript Watched.step (fun _ _ => true) ⟨.init, []⟩
      [.createConnection none none,
        .api 0 (.connect 80 (some "host") ⟨true, .inProgress, 0, true⟩),
        .dnsDone 0 (some 7) false, .api 0 (.close true)]).map (fun w =>
          (w.closed, (view w.sys 0).answers,
            (w.sys.socks.uds 0).map fun u => (u.waitDns, u.selfRef))) =
      some ([0], 0, some (1, true)) := by decide +kernel
  obtain ⟨w, hs, hv⟩ := Option.map_eq_some_iff.mp hrun
  simp only [Prod.mk.injEq] at hv
  obtain ⟨hc, ha, hud⟩ := hv
  refine ⟨w, reach_of_script (fun _ _ _ => trivial) hs, fun hall => ?_, hc, ha, hud⟩
  obtain ⟨u, hu, hv⟩ := Option.map_eq_some_iff.mp hud
  have hreleased := (hall 0 u hu).released (by simp [hc]) ha
  simp [hreleased] at hv

end Esp32Project.Net
