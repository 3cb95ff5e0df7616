import Esp32Project.Ftp.Arguments

/-!
PORT. Its numbers are stored while they are read, the test for a bad text comes
too late, and no transfer ever goes to the address.
-/

set_option autoImplicit false

namespace Esp32Project.Ftp
open Esp32Project.Lib

def decimalValue (digits : List UInt8) : Nat :=
  digits.foldl (fun n c => 10 * n + (c - 48).toNat) 0

structure IsOctet (digits : List UInt8) : Prop where
  nonempty : digits ≠ []
  digit : ∀ c ∈ digits, isDigit c = true
  small : decimalValue digits ≤ 255

/-- Six numbers, the address `a` by the first four of them, the port by the others. -/
def Names (p : List UInt8) (a : Address) : Prop :=
  ∃ d₀ d₁ d₂ d₃ d₄ d₅, IsOctet d₀ ∧ IsOctet d₁ ∧ IsOctet d₂ ∧ IsOctet d₃ ∧ IsOctet d₄ ∧
    IsOctet d₅ ∧
    p = d₀ ++ comma :: (d₁ ++ comma :: (d₂ ++ comma :: (d₃ ++ comma :: (d₄ ++ comma :: d₅)))) ∧
    a = ⟨#v[UInt8.ofNat (decimalValue d₀), UInt8.ofNat (decimalValue d₁),
        UInt8.ofNat (decimalValue d₂), UInt8.ofNat (decimalValue d₃)],
      UInt16.ofNat (256 * decimalValue d₄ + decimalValue d₅)⟩

def Replies (s t : Server) (text : String) : Prop :=
  ∃ new c, t.log = s.log ++ new ∧ .replied c (ascii text) ∈ new

def portDone : String := "200 PORT command successful"
def portRefused : String := "501 Can't interpret parameters"

/-- A connection that the next transfer comes to is one with the address. -/
def ConnectsTo (t : Server) (a : Address) : Prop :=
  ∀ (i : Input) (d : Nat), (dataConnect i t).1.data = some d →
    ∃ new, (dataConnect i t).1.log = t.log ++ new ∧ .dataAccepted d a ∈ new

structure PortRight (i : Input) (s : Server) (p : List UInt8) : Prop where
  address : ∀ a, Names p a → ∃ t, port i s (some p) = .ok t ∧ Replies s t portDone ∧
    t.dataIp = a.ip ∧ t.dataPort = a.port ∧ ConnectsTo t a
  other : (¬∃ a, Names p a) → ∃ t, port i s (some p) = .ok t ∧ Replies s t portRefused ∧
    t.dataIp = s.dataIp ∧ t.dataPort = s.dataPort ∧ t.dataPassiveConn = s.dataPassiveConn

theorem not_isSpace_of_isDigit {c : UInt8} (h : isDigit c = true) : isSpace c = false := by
  unfold isDigit isSpace blank at *
  grind

theorem isDigit_ne_sign {c : UInt8} (h : isDigit c = true) : c ≠ 45 ∧ c ≠ 43 ∧ c ≠ comma := by
  refine ⟨?_, ?_, ?_⟩ <;> rintro rfl <;> cases h

theorem foldl_decimal (digits : List UInt8) (n : Nat) :
    digits.foldl (fun (n : Int) c => 10 * n + ((c - 48).toNat : Int)) n =
      (digits.foldl (fun n c => 10 * n + (c - 48).toNat) n : Nat) := by
  induction digits generalizing n with
  | nil => rfl
  | cons c cs ih =>
    have hcast : 10 * (n : Int) + ((c - 48).toNat : Int) =
        ((10 * n + (c - 48).toNat : Nat) : Int) := by
      push_cast
      rfl
    rw [List.foldl_cons, List.foldl_cons, hcast, ih]

theorem atoi_octet {digits : List UInt8} (h : IsOctet digits) {rest : List UInt8}
    (hrest : ∀ c ∈ rest.head?, isDigit c = false) :
    atoi (digits ++ rest) = decimalValue digits := by
  obtain ⟨c, cs, rfl⟩ := List.exists_cons_of_ne_nil h.nonempty
  have hc := h.digit c List.mem_cons_self
  have htake : ((c :: cs) ++ rest).takeWhile isDigit = c :: cs := by
    rw [List.takeWhile_append_of_pos h.digit]
    cases rest with
    | nil => simp
    | cons b bs => simp [hrest b rfl]
  have hspace : ((c :: cs) ++ rest).dropWhile isSpace = (c :: cs) ++ rest := by
    simp [not_isSpace_of_isDigit hc]
  obtain ⟨hminus, hplus, -⟩ := isDigit_ne_sign hc
  unfold atoi
  simp only [hspace]
  have hvalue : (((c :: cs) ++ rest).takeWhile isDigit).foldl
      (fun (n : Int) c => 10 * n + ((c - 48).toNat : Int)) 0 = (decimalValue (c :: cs) : Int) := by
    rw [htake]
    exact foldl_decimal _ 0
  rw [← hvalue]
  split
  · rename_i q heq
    cases heq
    exact absurd rfl hminus
  · rename_i q heq
    cases heq
    exact absurd rfl hplus
  · rfl

theorem next_octet {digits : List UInt8} (h : IsOctet digits) (rest : List UInt8) :
    next (strchrComma (digits ++ comma :: rest)) = .ok rest := by
  have hall : ∀ c ∈ digits, (c != comma) = true := fun c hc => by
    simpa using (isDigit_ne_sign (h.digit c hc)).2.2
  rw [strchrComma, if_pos (by simp), List.dropWhile_append_of_pos hall]
  simp [next]

theorem byteOf_octet {n : Nat} (h : n ≤ 255) : byteOf n = UInt8.ofNat n := by
  unfold byteOf
  congr 1
  omega

theorem portOf_octets {m n : Nat} (hm : m ≤ 255) (hn : n ≤ 255) :
    wordOf (256 * m) + wordOf n = UInt16.ofNat (256 * m + n) := by
  unfold wordOf
  rw [UInt16.ofNat_add]
  congr 2 <;> omega

def portStopped (i : Input) (s : Server) : Server := (s.checkData i.dataConnected).dataStop

theorem portStopped_log (i : Input) (s : Server) :
    (∃ new, (portStopped i s).log = s.log ++ new ∧ ∀ c text, .replied c text ∉ new) ∧
      (portStopped i s).data = none := by
  unfold portStopped Server.dataStop
  have hlog : (s.checkData i.dataConnected).log = s.log := by
    unfold Server.checkData
    split <;> rfl
  split
  · exact ⟨⟨[_], by rw [← hlog]; rfl, by simp⟩, rfl⟩
  · rename_i h
    exact ⟨⟨[], by simp [hlog], by simp⟩, h⟩

theorem portStopped_client (i : Input) (s : Server) : (portStopped i s).client = s.client := by
  unfold portStopped Server.dataStop Server.checkData
  split <;> split <;> rfl

def portStored (i : Input) (s : Server) (a : Address) : Server :=
  { portStopped i s with dataIp := a.ip, dataPort := a.port, dataPassiveConn := false }

theorem port_ok {i : Input} {s t : Server} {parameters : Option (List UInt8)}
    (h : port i s parameters = .ok t) : ∃ a, t = (portStored i s a).say portDone := by
  obtain ⟨dataIp, dataPort, rfl⟩ := port_cases h
  exact ⟨⟨dataIp, dataPort⟩, rfl⟩

theorem say_log (s : Server) (text : String) :
    (s.say text).log = s.log ++ (s.client.map fun c => .replied c (ascii text)).toList := by
  unfold Server.say Server.println
  cases s.client <;> simp [Server.emit]

theorem say_address (s : Server) (text : String) :
    (s.say text).dataIp = s.dataIp ∧ (s.say text).dataPort = s.dataPort := by
  unfold Server.say Server.println
  split <;> exact ⟨rfl, rfl⟩

theorem port_not_refused {i : Input} {s t : Server} {parameters : Option (List UInt8)}
    (h : port i s parameters = .ok t) : ¬Replies s t portRefused := by
  obtain ⟨a, rfl⟩ := port_ok h
  obtain ⟨⟨new, hlog, hnone⟩, -⟩ := portStopped_log i s
  rintro ⟨more, c, hmore, hm⟩
  rw [say_log, show (portStored i s a).log = (portStopped i s).log from rfl, hlog,
    List.append_assoc] at hmore
  rw [← List.append_cancel_left hmore, List.mem_append] at hm
  rcases hm with hm | hm
  · exact hnone c _ hm
  · have hsame : ascii portDone = ascii portRefused := by
      simp only [Option.mem_toList, Option.map_eq_some_iff, Event.replied.injEq] at hm
      obtain ⟨_, -, -, hsame⟩ := hm
      exact hsame
    exact absurd hsame (by decide)

/-- A data connection comes about without a look at what PORT stores. -/
theorem dataConnect_address (i : Input) (s : Server) (a : Address) (passive : Bool) :
    dataConnect i { s with dataIp := a.ip, dataPort := a.port, dataPassiveConn := passive } =
      ({ (dataConnect i s).1 with
        dataIp := a.ip, dataPort := a.port, dataPassiveConn := passive }, (dataConnect i s).2) := by
  obtain ⟨client, data⟩ := s
  unfold dataConnect Server.checkData
  cases i.dataConnected <;> cases data <;> cases i.dataPending <;> rfl

/-- The next transfer takes the client of the data server that waits. -/
theorem port_takes_waiting {i : Input} {s t : Server} {parameters : Option (List UInt8)}
    (h : port i s parameters = .ok t) {j : Input} (hj : j.dataPending = some true) :
    (dataConnect j t).1.data = some t.nextData ∧
      (dataConnect j t).1.log = t.log ++ [.dataAccepted t.nextData j.dataPeer] := by
  obtain ⟨a, rfl⟩ := port_ok h
  have hstored : (portStored i s a).say portDone = { (portStopped i s).say portDone with
      dataIp := a.ip, dataPort := a.port, dataPassiveConn := false } := by
    unfold Server.say Server.println portStored
    cases (portStopped i s).client <;> rfl
  have hnone : ((portStopped i s).say portDone).data = none := by
    unfold Server.say Server.println
    split <;> exact (portStopped_log i s).2
  rw [hstored, dataConnect_address]
  generalize (portStopped i s).say portDone = t at hnone
  have hchecked : t.checkData j.dataConnected = t := by
    unfold Server.checkData
    split
    · rfl
    · rw [← hnone]
  simp [dataConnect, hchecked, hnone, hj, Server.emit]

/-- No connection is made to the address: one with another port of the host does as well. -/
theorem port_not_connects {i : Input} {s t : Server} {parameters : Option (List UInt8)}
    (h : port i s parameters = .ok t) (a : Address) : ¬ConnectsTo t a := by
  intro hconnects
  obtain ⟨hdata, hlog⟩ := port_takes_waiting h
    (j := { calm with dataPending := some true, dataPeer := ⟨a.ip, a.port + 1⟩ }) rfl
  obtain ⟨new, hnew, hm⟩ := hconnects _ _ hdata
  rw [hlog] at hnew
  rw [← List.append_cancel_left hnew, List.mem_singleton, Event.dataAccepted.injEq] at hm
  have hport : a.port = a.port + 1 := congrArg Address.port hm.2
  exact absurd hport.symm (by simp)

/-- What PORT does with an address as it should. -/
theorem port_stores (i : Input) (s : Server) {p : List UInt8} {a : Address} (h : Names p a) :
    ∃ t, port i s (some p) = .ok t ∧ (s.client.isSome = true → Replies s t portDone) ∧
      t.dataIp = a.ip ∧ t.dataPort = a.port := by
  refine ⟨(portStored i s a).say portDone, ?_, fun hclient => ?_, say_address _ _⟩
  · obtain ⟨d₀, d₁, d₂, d₃, d₄, d₅, h₀, h₁, h₂, h₃, h₄, h₅, rfl, rfl⟩ := h
    have hcomma (rest : List UInt8) : ∀ c ∈ (comma :: rest).head?, isDigit c = false := by
      simp [isDigit, comma]
    have hatoi {d : List UInt8} (hd : IsOctet d) (rest : List UInt8) :
        atoi (d ++ comma :: rest) = decimalValue d := atoi_octet hd (hcomma rest)
    have hlast : atoi d₅ = decimalValue d₅ := by
      have hnone : ∀ c ∈ ([] : List UInt8).head?, isDigit c = false := by simp
      simpa using atoi_octet h₅ hnone
    unfold port
    simp only [given, bind, Except.bind, next_octet h₀, next_octet h₁, next_octet h₂,
      next_octet h₃, next_octet h₄, hatoi h₀, hatoi h₁, hatoi h₂, hatoi h₃, hatoi h₄, hlast,
      byteOf_octet h₀.small, byteOf_octet h₁.small, byteOf_octet h₂.small, byteOf_octet h₃.small,
      portOf_octets h₄.small h₅.small, pure, Except.pure]
    rfl
  · obtain ⟨c, hc⟩ := Option.isSome_iff_exists.mp hclient
    obtain ⟨⟨new, hlog, -⟩, -⟩ := portStopped_log i s
    refine ⟨new ++ [.replied c (ascii portDone)], c, ?_, by simp⟩
    rw [say_log, show (portStored i s a).client = s.client from portStopped_client i s, hc,
      show (portStored i s a).log = (portStopped i s).log from rfl, hlog, List.append_assoc]
    rfl

/-- PORT does what it should with no text at all. -/
theorem port_never_right (i : Input) (s : Server) (p : List UInt8) : ¬PortRight i s p := by
  intro h
  by_cases hp : ∃ a, Names p a
  · obtain ⟨a, ha⟩ := hp
    obtain ⟨t, ht, -, -, -, hconnects⟩ := h.address a ha
    exact port_not_connects ht a hconnects
  · obtain ⟨t, ht, hreplies, -⟩ := h.other hp
    exact port_not_refused ht hreplies

theorem sample_names : Names (ascii "10,0,0,2,4,1") ⟨#v[10, 0, 0, 2], 1025⟩ := by
  have hoctet : ∀ d ∈ [ascii "10", ascii "0", ascii "2", ascii "4", ascii "1"], IsOctet d := by
    intro d hd
    simp only [List.mem_cons, List.not_mem_nil, or_false] at hd
    rcases hd with rfl | rfl | rfl | rfl | rfl <;>
      exact ⟨by decide, by decide +kernel, by decide +kernel⟩
  exact ⟨ascii "10", ascii "0", ascii "0", ascii "2", ascii "4", ascii "1", hoctet _ (by simp),
    hoctet _ (by simp), hoctet _ (by simp), hoctet _ (by simp), hoctet _ (by simp),
    hoctet _ (by simp), by decide +kernel, by decide⟩

def stranger : Address := ⟨#v[10, 0, 0, 9], 4000⟩

/-- A session names port 1025 of the host 10.0.0.2. All is well but for the connection, which is
one with whoever waits at the data server. -/
theorem port_goes_elsewhere :
    ∃ s, Reach handleStep (fun _ _ => True) (start (ascii "u") (ascii "p")) s ∧ s.cmdStatus = 5 ∧
      (∃ t, port calm s (some (ascii "10,0,0,2,4,1")) = .ok t ∧ Replies s t portDone ∧
        t.dataIp = #v[10, 0, 0, 2] ∧ t.dataPort = 1025 ∧
        (dataConnect { calm with dataPending := some true, dataPeer := stranger } t).1.log =
          t.log ++ [.dataAccepted t.nextData stranger]) ∧
      ¬PortRight calm s (ascii "10,0,0,2,4,1") := by
  have hrun : (runScript handleStep (fun _ _ => true) (start (ascii "u") (ascii "p"))
      (entering "USER u\n")).map (fun s => decide (s.cmdStatus = 5 ∧ s.client.isSome = true)) =
        some true := by decide +kernel
  obtain ⟨s, hs, hin⟩ := Option.map_eq_some_iff.mp hrun
  obtain ⟨hstatus, hclient⟩ := of_decide_eq_true hin
  obtain ⟨t, ht, hreplies, hip, hport⟩ := port_stores calm s sample_names
  refine ⟨s, reach_of_script (fun _ _ _ => trivial) hs, hstatus,
    ⟨t, ht, hreplies hclient, hip, hport, (port_takes_waiting ht rfl).2⟩, fun h => ?_⟩
  obtain ⟨t', ht', -, -, -, hconnects⟩ := h.address _ sample_names
  exact port_not_connects ht' _ hconnects

end Esp32Project.Ftp
