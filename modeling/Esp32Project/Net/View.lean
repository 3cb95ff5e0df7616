import Mathlib.Algebra.Order.Group.Int
import Mathlib.Data.List.Count
import Mathlib.Tactic.SplitIfs
import Esp32Project.Net.Changes

/-!
One socket's part of the traffic, and the rules that tie it to the userdata: as
long as anything names the socket it is anchored, and `waitDns` counts the
lookups that still come back.
-/

set_option autoImplicit false

namespace Esp32Project.Net

def Event.names (ud : Ud) (e : Event) : Bool := e.ud = some ud

def Lookup.names (ud : Ud) (l : Lookup) : Bool := l.arg = .sock ud

def Event.isDns : Event → Bool
  | .dnsFound .. => true
  | _ => false

def Event.isErr : Event → Bool
  | .err .. => true
  | _ => false

/-- What names a socket: the number of lookups, the events in either queue, and
the event being handled. -/
structure View where
  lookups : Nat
  medium : List Event
  high : List Event
  frame : Option Event

namespace View

def idle : View := ⟨0, [], [], none⟩

def inDns (v : View) : Nat := (v.frame.filter Event.isDns).toList.length

def answers (v : View) : Nat := v.lookups + v.medium.countP Event.isDns + v.inDns

end View

def view (s : System) (ud : Ud) : View :=
  ⟨s.lookups.countP (Lookup.names ud), s.medium.filter (Event.names ud),
    s.high.filter (Event.names ud), s.frame.filter (Event.names ud)⟩

/-- Every ERR event has fewer than `w` answers before it, `n` of which are no
longer in the queue. -/
def Behind (w : Int) : Int → List Event → Prop
  | _, [] => True
  | n, e :: es => (e.isErr → n + 1 ≤ w) ∧ Behind w (n + if e.isDns then 1 else 0) es

/-- The rules for a socket. The end of an ERR event's handler drops the anchor
unless a lookup is waited for; `behind` and `inErr` say that one is if the
socket was connected again meanwhile. -/
structure Ok (u : Userdata) (v : View) : Prop where
  anchored : v ≠ .idle → u.selfRef = true
  held : u.pcb ≠ none → u.selfRef = true
  counted : (v.answers : Int) ≤ u.waitDns
  behind : u.pcb ≠ none → Behind u.waitDns v.inDns v.medium
  inErr : u.pcb ≠ none → ∀ e ∈ v.frame, e.isErr → 1 ≤ u.waitDns
  client : u.type ≠ .tcpClient → ∀ e, e ∈ v.medium ∨ e ∈ v.frame → e.isErr = false
  server : u.type = .tcpServer → u.waitDns = 0
  frame : ∀ e ∈ v.frame, e.isDns ∨ e.isErr
  high : ∀ e ∈ v.high, e.isDns = false ∧ e.isErr = false

def Local (ou : Option Userdata) (v : View) : Prop :=
  match ou with
  | none => v = .idle
  | some u => Ok u v

structure Inv (s : System) : Prop where
  each : ∀ ud, Local (s.socks.uds ud) (view s ud)
  fresh : ∀ ud, s.socks.nextUd ≤ ud → s.socks.uds ud = none

section

variable {w n : Int} {e : Event} {es : List Event}

theorem behind_mono {w' n' : Int} (h : Behind w n es) (hw : w - n ≤ w' - n') : Behind w' n' es := by
  induction es generalizing n n' with
  | nil => trivial
  | cons e es ih =>
    refine ⟨fun he => ?_, ih h.2 (by omega)⟩
    have := h.1 he
    omega

theorem behind_append :
    Behind w n (es ++ [e]) ↔
      Behind w n es ∧ (e.isErr → n + es.countP Event.isDns + 1 ≤ w) := by
  induction es generalizing n with
  | nil => simp [Behind]
  | cons d es ih =>
    have hcount : n + (if d.isDns then 1 else 0) + (es.countP Event.isDns : Nat) =
        n + ((d :: es).countP Event.isDns : Nat) := by
      rw [List.countP_cons]
      split
      · push_cast
        omega
      · simp
    rw [List.cons_append, Behind, Behind, ih, hcount, and_assoc]

theorem behind_of_count (h : n + es.countP Event.isDns + 1 ≤ w) : Behind w n es := by
  induction es generalizing n with
  | nil => trivial
  | cons d es ih =>
    rw [List.countP_cons] at h
    refine ⟨fun _ => by omega, ih ?_⟩
    cases hd : d.isDns <;> simp only [hd, if_true, if_false, Bool.false_eq_true] at h ⊢ <;> omega

theorem behind_of_noErr (h : ∀ e ∈ es, e.isErr = false) : Behind w n es := by
  induction es generalizing n with
  | nil => trivial
  | cons d es ih =>
    refine ⟨fun hd => ?_, ih fun e he => h e (by simp [he])⟩
    simp [h d (by simp)] at hd

end

namespace Ok

variable {u u' : Userdata} {v : View} {e : Event}

theorem start (hpcb : u.pcb ≠ none → u.selfRef = true) (hw : u.waitDns = 0) : Ok u .idle where
  anchored h := absurd rfl h
  held := hpcb
  counted := by simp [View.answers, View.inDns, View.idle, hw]
  behind _ := trivial
  inErr _ e he := by simp [View.idle] at he
  client _ e he := by simp [View.idle] at he
  server _ := hw
  frame e he := by simp [View.idle] at he
  high e he := by simp [View.idle] at he

theorem mild (h : Ok u v) (hm : Mild u u') : Ok u' v where
  anchored hv := hm.selfRef (h.anchored hv)
  held hn := by
    rcases hm.pcb hn with hold | ⟨hr, -⟩
    · exact hm.selfRef (h.held (hold ▸ hn))
    · exact hr
  counted := hm.waitDns ▸ h.counted
  behind hn := by
    rw [hm.waitDns]
    rcases hm.pcb hn with hold | ⟨-, hc⟩
    · exact h.behind (hold ▸ hn)
    · exact behind_of_noErr fun e he => h.client hc e (.inl he)
  inErr hn e he herr := by
    rcases hm.pcb hn with hold | ⟨-, hc⟩
    · exact hm.waitDns ▸ h.inErr (hold ▸ hn) e he herr
    · simp [h.client hc e (.inr he)] at herr
  client hc := h.client (hm.type ▸ hc)
  server hs := hm.waitDns ▸ h.server (hm.type ▸ hs)
  frame := h.frame
  high := h.high

theorem drop (h : Ok u v) (hv : v = .idle) (ht : u'.type = u.type) (hw : u'.waitDns = u.waitDns)
    (hp : u'.pcb = none) : Ok u' v where
  anchored hn := absurd hv hn
  held hn := absurd hp hn
  counted := hw ▸ h.counted
  behind hn := absurd hp hn
  inErr hn := absurd hp hn
  client hc := h.client (ht ▸ hc)
  server hs := hw ▸ h.server (ht ▸ hs)
  frame := h.frame
  high := h.high

theorem pushHigh (h : Ok u v) (hr : u.selfRef = true) (hd : e.isDns = false)
    (he : e.isErr = false) : Ok u { v with high := v.high ++ [e] } where
  anchored _ := hr
  held := h.held
  counted := h.counted
  behind := h.behind
  inErr := h.inErr
  client := h.client
  server := h.server
  frame := h.frame
  high d hm := by
    rcases List.mem_append.mp hm with hm | hm
    · exact h.high d hm
    · rw [List.mem_singleton.mp hm]
      exact ⟨hd, he⟩

theorem pushMedium (h : Ok u v) (hr : u.selfRef = true) (hd : e.isDns = false)
    (he : e.isErr = false) : Ok u { v with medium := v.medium ++ [e] } where
  anchored _ := hr
  held := h.held
  counted := by simpa [View.answers, View.inDns, hd] using h.counted
  behind hn := behind_append.mpr ⟨h.behind hn, by simp [he]⟩
  inErr := h.inErr
  client hc d hd := by
    rcases hd with hd | hd
    · rcases List.mem_append.mp hd with hd | hd
      · exact h.client hc d (.inl hd)
      · rwa [List.mem_singleton.mp hd]
    · exact h.client hc d (.inr hd)
  server := h.server
  frame := h.frame
  high := h.high

theorem pushErr (h : Ok u v) (hr : u.selfRef = true) (hp : u.pcb = none)
    (ht : u.type = .tcpClient) (hd : e.isDns = false) :
    Ok u { v with medium := v.medium ++ [e] } where
  anchored _ := hr
  held := h.held
  counted := by simpa [View.answers, View.inDns, hd] using h.counted
  behind hn := absurd hp hn
  inErr := h.inErr
  client hc := absurd ht hc
  server := h.server
  frame := h.frame
  high := h.high

theorem wait (h : Ok u v) (u' : Userdata) (ht : u'.type = u.type) (hs : u.type ≠ .tcpServer)
    (hw : u'.waitDns = u.waitDns + 1) (hr : u'.selfRef = true) :
    Ok u' { v with lookups := v.lookups + 1 } := by
  have hcount : ((v.answers + 1 : Nat) : Int) ≤ u'.waitDns := by
    have := h.counted
    omega
  refine ⟨fun _ => hr, fun _ => hr, ?_, fun _ => behind_of_count ?_, fun _ _ _ _ => ?_,
    fun hc => h.client (ht ▸ hc), fun hs' => absurd (ht ▸ hs') hs, h.frame, h.high⟩
  · simp only [View.answers, View.inDns] at hcount ⊢
    omega
  · simp only [View.answers, View.inDns] at hcount ⊢
    omega
  · omega

theorem answer {k : Nat} (h : Ok u { v with lookups := k + 1 }) (hd : e.isDns = true)
    (he : e.isErr = false) (posted : Bool) :
    Ok u { v with
      lookups := k, medium := if posted then v.medium ++ [e] else v.medium } where
  anchored _ := h.anchored (by simp [View.idle])
  held := h.held
  counted := by
    have := h.counted
    simp only [View.answers, View.inDns] at this ⊢
    split
    · simp [List.countP_append, hd]
      omega
    · omega
  behind hn := by
    split
    · exact behind_append.mpr ⟨h.behind hn, by simp [he]⟩
    · exact h.behind hn
  inErr := h.inErr
  client hc d hd := by
    rcases hd with hd | hd
    · split at hd
      · rcases List.mem_append.mp hd with hd | hd
        · exact h.client hc d (.inl hd)
        · rwa [List.mem_singleton.mp hd]
      · exact h.client hc d (.inl hd)
    · exact h.client hc d (.inr hd)
  server := h.server
  frame := h.frame
  high := h.high

theorem popHigh {es : List Event} (h : Ok u v) (hv : v.high = e :: es) :
    Ok u { v with high := es } :=
  { h with
    anchored := fun _ => h.anchored (by rintro rfl; simp [View.idle] at hv)
    high := fun d hd => h.high d (by simp [hv, hd]) }

theorem popMedium {es : List Event} {frame : Option Event} (h : Ok u v) (hv : v.medium = e :: es)
    (hf : v.frame = none) (hframe : frame = none ∨ frame = some e ∧ (e.isDns ∨ e.isErr)) :
    Ok u { v with medium := es, frame } := by
  have hr : u.selfRef = true := h.anchored (by rintro rfl; simp [View.idle] at hv)
  have hle : (frame.filter Event.isDns).toList.length ≤ if e.isDns then 1 else 0 := by
    rcases hframe with rfl | ⟨rfl, -⟩
    · simp
    · cases hd : e.isDns <;> simp [Option.filter, hd]
  have hcount := h.counted
  simp only [View.answers, View.inDns, hv, hf, List.countP_cons, Option.filter_none,
    Option.toList_none, List.length_nil] at hcount
  refine ⟨fun _ => hr, h.held, ?_, fun hn => ?_, fun hn d hd herr => ?_, fun hc d hd => ?_,
    h.server, fun d hd => ?_, h.high⟩
  · simp only [View.answers, View.inDns]
    omega
  · have hb := h.behind hn
    rw [hv] at hb
    refine behind_mono hb.2 ?_
    simp only [View.inDns, hf, Option.filter_none, Option.toList_none, List.length_nil]
    cases hd : e.isDns <;> simp only [hd, if_true, if_false, Bool.false_eq_true] at hle ⊢ <;> omega
  · have hb := h.behind hn
    rw [hv] at hb
    rcases hframe with rfl | ⟨rfl, -⟩
    · cases hd
    · cases hd
      have := hb.1 herr
      simp only [View.inDns, hf, Option.filter_none, Option.toList_none, List.length_nil] at this
      omega
  · rcases hd with hd | hd
    · exact h.client hc d (.inl (by simp [hv, hd]))
    · rcases hframe with rfl | ⟨rfl, -⟩
      · cases hd
      · cases hd
        exact h.client hc _ (.inl (by simp [hv]))
  · rcases hframe with rfl | ⟨rfl, he⟩
    · cases hd
    · cases hd
      exact he

theorem inDns_of_frame (hv : v.frame = some e) (hd : e.isDns = true) : v.inDns = 1 := by
  simp [View.inDns, hv, Option.filter, hd]

theorem endDns (h : Ok u v) (hv : v.frame = some e) (hd : e.isDns = true)
    (hu : u' = { u with waitDns := u.waitDns - 1 }) : Ok u' { v with frame := none } := by
  subst hu
  have hone := inDns_of_frame hv hd
  have hcount := h.counted
  refine ⟨fun _ => h.anchored ?_, h.held, ?_, fun hn => ?_, fun _ _ he => (by cases he),
    fun hc d he => ?_, fun hs => ?_, fun _ he => (by cases he), h.high⟩
  · rintro rfl
    cases hv
  · simp only [View.answers] at hcount ⊢
    rw [hone] at hcount
    simp only [View.inDns, Option.filter_none, Option.toList_none, List.length_nil]
    omega
  · refine behind_mono (h.behind hn) ?_
    rw [hone]
    simp [View.inDns]
  · rcases he with he | he
    · exact h.client hc d (.inl he)
    · cases he
  · have hw := h.server hs
    simp only [View.answers] at hcount
    omega

theorem endErr (h : Ok u v) (hv : v.frame = some e) (hd : e.isDns = false) :
    Ok u { v with frame := none } := by
  have hzero : v.inDns = 0 := by simp [View.inDns, hv, Option.filter, hd]
  refine ⟨fun _ => h.anchored ?_, h.held, ?_, fun hn => ?_, fun _ _ he => (by cases he),
    fun hc d he => ?_, h.server, fun _ he => (by cases he), h.high⟩
  · rintro rfl
    cases hv
  · have hcount := h.counted
    rw [View.answers, hzero] at hcount
    simpa [View.answers, View.inDns] using hcount
  · have hb := h.behind hn
    rw [hzero] at hb
    simpa [View.inDns] using hb
  · rcases he with he | he
    · exact h.client hc d (.inl he)
    · cases he

theorem idle (h : Ok u v) (hw : u.waitDns = 0) (hm : v.medium = []) (hh : v.high = [])
    (hf : v.frame = none) : v = .idle := by
  have hcount := h.counted
  obtain ⟨lookups, medium, high, frame⟩ := v
  simp only [View.answers, hw] at hcount hm hh hf
  have hl : lookups = 0 := by omega
  simp [View.idle, hl, hm, hh, hf]

theorem frame_none (h : Ok u v) (hp : u.pcb ≠ none) (hw : u.waitDns = 0) : v.frame = none := by
  cases hv : v.frame with
  | none => rfl
  | some e =>
    rcases h.frame e hv with hd | he
    · have hone := inDns_of_frame hv hd
      have hcount := h.counted
      simp only [View.answers] at hcount
      omega
    · have := h.inErr hp e hv he
      omega

end Ok

end Esp32Project.Net
