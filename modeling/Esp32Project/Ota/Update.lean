import Esp32Project.Lib.Reach
import Esp32Project.Ota.Package

/-!
Client and server of the TCP update over one connection. Requests and packages
are on their way for as long as the network likes, and a netbuf may hold any
bytes.
-/

set_option autoImplicit false

namespace Esp32Project.Ota
open Esp32Project.Lib

inductive Phase where
  | asks
  | waits
  /-- the loop is left -/
  | left
  /-- `esp_ota_end` has returned; the boot partition was set if that was ESP_OK -/
  | ended (booted : Bool)
  deriving DecidableEq, Repr

structure World where
  server : Server
  /-- the requests that the server has not read -/
  up : List UInt8
  /-- what each send of the server left on its way -/
  down : List (List UInt8)
  client : Client
  phase : Phase

inductive Act where
  | ask
  /-- `conn.recv` gives that many bytes -/
  | serve (n : Nat)
  /-- `netconn_recv` gives no netbuf or these pbufs; `esp_ota_write` succeeds -/
  | recv (netbuf : Option (List (List UInt8))) (writeOk : Bool)
  | finish (endOk : Bool)

/-- So many bytes of the stream have arrived. -/
def deliver (n : Nat) : List (List UInt8) → List (List UInt8)
  | [] => []
  | sent :: rest =>
    if n = 0 then sent :: rest
    else if sent.length ≤ n then deliver (n - sent.length) rest
    else sent.drop n :: rest

def step (image : List UInt8) (w : World) : Act → Option World
  | .ask =>
    if w.phase = .asks then
      some { w with
        up := w.up ++ if w.client.resend then reqResend else reqData
        client := { w.client with resend := false }
        phase := .waits }
    else none
  | .serve n =>
    if w.server.serving = true ∧ 0 < n ∧ n ≤ 1024 ∧ n ≤ w.up.length then
      let (server, sent) := w.server.answer image (w.up.take n)
      some { w with server, up := w.up.drop n, down := w.down ++ sent.toList }
    else none
  | .recv none _ => if w.phase = .waits then some { w with phase := .asks } else none
  | .recv (some payloads) writeOk =>
    if w.phase = .waits then
      (receive w.client payloads writeOk).toOption.map fun (client, leave) =>
        { w with
          client
          down := deliver payloads.flatten.length w.down
          phase := if leave then .left else .asks }
    else none
  | .finish endOk => if w.phase = .left then some { w with phase := .ended endOk } else none

def World.init : World :=
  ⟨⟨0, none, 0, true⟩, [], [], ⟨0, 0, false, []⟩, .asks⟩

/-- A netbuf holds the next package as it was sent, and its data is written. -/
def whole (w : World) : Act → Bool
  | .recv (some payloads) writeOk => w.down.head? == some payloads.flatten && writeOk
  | _ => true

/-- The image in four parts: what the client has written, the packages on their
way, and what the server has not sent. -/
structure Stream (image : List UInt8) (w : World) (pending : List (List UInt8))
    (rest : List UInt8) : Prop where
  down : w.down = pending.map (package image.length)
  sizes : ∀ dat ∈ pending, dat.length ≤ packageSize
  parts : w.client.written ++ pending.flatten ++ rest = image
  serving : w.server.serving = true →
    rest = image.drop w.server.fd ∧ w.server.sendCount = w.server.fd
  served : w.server.serving = false → rest = []

structure UpdateInv (image : List UInt8) (w : World) : Prop where
  stream : ∃ pending rest, Stream image w pending rest
  total : w.client.totalLen = 0 ∨ w.client.totalLen = image.length
  count : w.client.recvCount = w.client.written.length
  resend : w.client.resend = false
  -- no request for a package once more is on its way
  up : 49 ∉ w.up
  complete : w.phase ≠ .asks → w.phase ≠ .waits → w.client.written = image

section

variable {image : List UInt8} {w w' : World}

theorem update_init : UpdateInv image World.init where
  stream := ⟨[], image, rfl, fun _ h => absurd h List.not_mem_nil, rfl, fun _ => ⟨rfl, rfl⟩,
    (nomatch ·)⟩
  total := .inl rfl
  count := rfl
  resend := rfl
  up := List.not_mem_nil
  complete h := absurd rfl h

theorem deliver_head {sent : List UInt8} (h : sent ≠ []) (rest : List (List UInt8)) :
    deliver sent.length (sent :: rest) = rest := by
  have hpos : sent.length ≠ 0 := fun hz => h (List.length_eq_zero_iff.mp hz)
  rw [deliver, if_neg hpos, if_pos (Nat.le_refl _), Nat.sub_self]
  cases rest with
  | nil => rfl
  | cons next rest => rw [deliver, if_pos rfl]

theorem package_ne_nil (fileSize : Nat) (dat : List UInt8) : package fileSize dat ≠ [] := by
  rw [package_eq]
  exact List.cons_ne_nil _ _

theorem Stream.answer {pending : List (List UInt8)} {rest : List UInt8}
    (h : Stream image w pending rest) (hs : w.server.serving = true) (up : List UInt8) :
    ∃ pending rest, Stream image { w with
      server := (w.server.answer image reqData).1
      up := up
      down := w.down ++ (w.server.answer image reqData).2.toList } pending rest := by
  obtain ⟨hrest, hcount⟩ := h.serving hs
  have hdata : (image.drop w.server.fd).take packageSize = rest.take packageSize := by
    rw [hrest]
  have hsent : (w.server.answer image reqData).2 =
      some (package image.length (rest.take packageSize)) := by
    unfold Server.answer
    rw [if_pos rfl]
    dsimp only
    rw [hdata]
    split
    · rfl
    · split <;> rfl
  have hdrop : rest.drop packageSize =
      image.drop (w.server.fd + (rest.take packageSize).length) := by
    rw [← List.drop_drop, ← hrest, List.length_take]
    by_cases hlen : packageSize ≤ rest.length
    · rw [Nat.min_eq_left hlen]
    · rw [Nat.min_eq_right (by omega), List.drop_length, List.drop_of_length_le (by omega)]
  refine ⟨pending ++ [rest.take packageSize], rest.drop packageSize, ?_, ?_, ?_, ?_, ?_⟩
  · simp [hsent, h.down]
  · intro dat hdat
    rcases List.mem_append.mp hdat with hdat | hdat
    · exact h.sizes dat hdat
    · rw [List.mem_singleton.mp hdat]
      exact List.length_take_le _ _
  · have hparts := h.parts
    simp only [List.flatten_append, List.flatten_cons, List.flatten_nil, List.append_nil]
    rw [← List.append_assoc, List.append_assoc, List.take_append_drop]
    exact hparts
  · intro hserving
    rw [hdrop]
    unfold Server.answer at hserving ⊢
    rw [if_pos rfl] at hserving ⊢
    dsimp only at hserving ⊢
    rw [hdata] at hserving ⊢
    split at hserving
    · cases hserving
    · split at hserving
      · cases hserving
      · rename_i hne hmore
        rw [if_neg hne, if_neg hmore, hcount]
        exact ⟨rfl, rfl⟩
  · intro hserved
    rw [hdrop]
    refine List.drop_of_length_le ?_
    unfold Server.answer at hserved
    rw [if_pos rfl] at hserved
    dsimp only at hserved
    rw [hdata] at hserved
    split at hserved
    · omega
    · split at hserved
      · omega
      · cases hserved

theorem Stream.frame {pending : List (List UInt8)} {rest : List UInt8}
    (h : Stream image w pending rest) (hserver : w'.server = w.server) (hdown : w'.down = w.down)
    (hwritten : w'.client.written = w.client.written) : Stream image w' pending rest where
  down := hdown.trans h.down
  sizes := h.sizes
  parts := by rw [hwritten, h.parts]
  serving := by
    rw [hserver]
    exact h.serving
  served := by
    rw [hserver]
    exact h.served

theorem UpdateInv.ask (h : UpdateInv image w) :
    UpdateInv image { w with
      up := w.up ++ if w.client.resend then reqResend else reqData
      client := { w.client with resend := false }
      phase := .waits } where
  stream := by
    obtain ⟨pending, rest, hs⟩ := h.stream
    exact ⟨pending, rest, hs.frame rfl rfl rfl⟩
  total := h.total
  count := h.count
  resend := rfl
  up := by
    rw [h.resend]
    intro hmem
    rcases List.mem_append.mp hmem with hmem | hmem
    · exact h.up hmem
    · exact absurd hmem (by decide)
  complete _ hw := absurd rfl hw

theorem UpdateInv.serve (h : UpdateInv image w) {n : Nat} (hs : w.server.serving = true) :
    UpdateInv image { w with
      server := (w.server.answer image (w.up.take n)).1
      up := w.up.drop n
      down := w.down ++ (w.server.answer image (w.up.take n)).2.toList } where
  stream := by
    obtain ⟨pending, rest, hstream⟩ := h.stream
    by_cases hreq : w.up.take n = reqData
    · rw [hreq]
      exact hstream.answer hs _
    · have hno : w.up.take n ≠ reqResend := by
        intro heq
        have hmem : 49 ∈ w.up.take n := by
          rw [heq]
          decide
        exact h.up (List.mem_of_mem_take hmem)
      have hignored : w.server.answer image (w.up.take n) = (w.server, none) := by
        rw [Server.answer, if_neg hreq, if_neg hno]
      rw [hignored]
      exact ⟨pending, rest, hstream.frame rfl (List.append_nil _) rfl⟩
  total := h.total
  count := h.count
  resend := h.resend
  up := fun hmem => h.up (List.mem_of_mem_drop hmem)
  complete := h.complete

theorem UpdateInv.recv (h : UpdateInv image w) (hsize : image.length < 2 ^ 31)
    {payloads : List (List UInt8)} (hwhole : w.down.head? = some payloads.flatten)
    {client : Client} {leave : Bool} (hr : receive w.client payloads true = .ok (client, leave)) :
    UpdateInv image { w with
      client
      down := deliver payloads.flatten.length w.down
      phase := if leave then .left else .asks } := by
  obtain ⟨pending, rest, hstream⟩ := h.stream
  cases pending with
  | nil =>
    rw [hstream.down] at hwhole
    cases hwhole
  | cons dat pending =>
    have hdown : w.down = package image.length dat :: pending.map (package image.length) :=
      hstream.down
    rw [hdown] at hwhole ⊢
    have hpayload : payloads.flatten = package image.length dat := (Option.some.inj hwhole).symm
    rw [receive_package h.total hsize hpayload (hstream.sizes dat List.mem_cons_self)] at hr
    rw [hpayload, deliver_head (package_ne_nil _ _)]
    unfold writeData at hr
    simp only [Bool.not_true, Bool.false_eq_true, if_false] at hr
    split at hr
    · cases hr
    cases hr
    have hparts : (w.client.written ++ dat) ++ pending.flatten ++ rest = image := by
      rw [← hstream.parts]
      simp
    have hcount : w.client.recvCount + dat.length = ((w.client.written ++ dat).length : Nat) := by
      rw [h.count, List.length_append]
      rfl
    refine ⟨⟨pending, rest, rfl, fun d hd => hstream.sizes d (List.mem_cons_of_mem _ hd), hparts,
      hstream.serving, hstream.served⟩, .inr rfl, hcount, h.resend, h.up, ?_⟩
    intro hasks _
    by_cases hleave : (image.length : Int) ≤ w.client.recvCount + dat.length
    · -- what is written is as long as the image it begins
      rw [hcount] at hleave
      have hlen := congrArg List.length hparts
      simp only [List.length_append] at hlen hleave
      have htail : pending.flatten ++ rest = [] := by
        rw [← List.length_eq_zero_iff, List.length_append]
        omega
      rw [List.append_assoc, htail, List.append_nil] at hparts
      exact hparts
    · simp [hleave] at hasks

theorem UpdateInv.step (h : UpdateInv image w) (hsize : image.length < 2 ^ 31) {a : Act}
    (hw : whole w a = true) (hs : Ota.step image w a = some w') : UpdateInv image w' := by
  cases a with
  | ask =>
    simp only [Ota.step] at hs
    split at hs
    · cases hs
      exact h.ask
    · cases hs
  | serve n =>
    simp only [Ota.step] at hs
    split at hs
    · rename_i hc
      cases hs
      exact h.serve hc.1
    · cases hs
  | recv netbuf writeOk =>
    cases netbuf with
    | none =>
      simp only [Ota.step] at hs
      split at hs
      · cases hs
        obtain ⟨pending, rest, hstream⟩ := h.stream
        exact ⟨⟨pending, rest, hstream.frame rfl rfl rfl⟩, h.total, h.count, h.resend, h.up,
          fun hasks => absurd rfl hasks⟩
      · cases hs
    | some payloads =>
      simp only [whole, Bool.and_eq_true, beq_iff_eq] at hw
      obtain ⟨hhead, rfl⟩ := hw
      simp only [Ota.step] at hs
      split at hs
      · obtain ⟨⟨client, leave⟩, hr, rfl⟩ := Option.map_eq_some_iff.mp hs
        refine h.recv hsize hhead ?_
        cases hres : receive w.client payloads true with
        | error e => simp [hres, Except.toOption] at hr
        | ok r =>
          rw [hres] at hr
          exact congrArg Except.ok (Option.some.inj hr)
      · cases hs
  | finish endOk =>
    simp only [Ota.step] at hs
    split at hs
    · rename_i hphase
      cases hs
      obtain ⟨pending, rest, hstream⟩ := h.stream
      exact ⟨⟨pending, rest, hstream.frame rfl rfl rfl⟩, h.total, h.count, h.resend, h.up,
        fun _ _ => h.complete (by rw [hphase]; exact nofun) (by rw [hphase]; exact nofun)⟩
    · cases hs

end

/-- When every netbuf holds the next package as it was sent and every write
succeeds, the boot partition is only set with the whole image written. -/
theorem boots_image (image : List UInt8) (hsize : image.length < 2 ^ 31) (w : World)
    (h : Reach (step image) (fun w a => whole w a = true) .init w)
    (hboot : w.phase = .ended true) : w.client.written = image :=
  (h.invariant (UpdateInv image) update_init fun _ _ _ hi hw hs => hi.step hsize hw hs).complete
    (by rw [hboot]; exact nofun) (by rw [hboot]; exact nofun)

/-- The first `netconn_recv` gives nothing, so that the client asks twice. -/
def undisturbed : List Act :=
  [.ask, .serve 8, .recv none true, .ask, .recv (some [package 3 [1, 2, 3]]) true, .finish true]

theorem boots_image_undisturbed :
    ∃ w, runScript (step [1, 2, 3]) whole .init undisturbed = some w ∧
      w.phase = .ended true ∧ w.client.written = [1, 2, 3] := by
  have hrun : (runScript (step [1, 2, 3]) whole .init undisturbed).map World.phase =
      some (.ended true) := by
    decide +kernel
  obtain ⟨w, hw, hphase⟩ := Option.map_eq_some_iff.mp hrun
  exact ⟨w, hw, hphase, boots_image [1, 2, 3] (by decide) w
    (reach_of_script (fun _ _ h => h) hw) hphase⟩

/-- A netbuf holds the next bytes of the stream, and its data is written. -/
def inOrder (w : World) : Act → Bool
  | .recv (some payloads) writeOk => payloads.flatten.isPrefixOf w.down.flatten && writeOk
  | _ => true

/-- The only package comes in two segments, the first with one of three bytes. -/
theorem segments_boot_other_image :
    ∃ image w, Reach (step image) (fun w a => inOrder w a = true) .init w ∧
      w.phase = .ended true ∧ w.client.written ≠ image := by
  have hrun : (runScript (step [1, 2, 3]) inOrder .init
      [.ask, .serve 8, .recv (some [(package 3 [1, 2, 3]).take 24]) true, .finish true]).map
        (fun w => (w.phase, w.client.written)) = some (.ended true, [1, 0, 0]) := by
    decide +kernel
  obtain ⟨w, hw, hend⟩ := Option.map_eq_some_iff.mp hrun
  obtain ⟨hphase, hwritten⟩ := Prod.mk.inj hend
  refine ⟨[1, 2, 3], w, reach_of_script (fun _ _ h => h) hw, hphase, ?_⟩
  rw [hwritten]
  decide

end Esp32Project.Ota
