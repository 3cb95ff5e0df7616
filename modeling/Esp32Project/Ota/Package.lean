import Esp32Project.Ota.Client
import Mathlib.Algebra.Group.Nat.Defs

/-! The client reads whole packages of the server as they were meant. -/

set_option autoImplicit false

namespace Esp32Project.Ota
open Esp32Project.Lib

theorem toUInt8_digit {c : Char} (h : c.isDigit = true) : c.toUInt8.toNat = c.toNat := by
  simp only [Char.isDigit, ge_iff_le, Bool.and_eq_true, decide_eq_true_eq] at h
  have hle : c.val.toNat ≤ 57 := UInt32.le_iff_toNat_le.mp h.2
  exact Nat.mod_eq_of_lt (Nat.lt_of_le_of_lt hle (by decide))

theorem digit_bounds {c : Char} (h : c.isDigit = true) : 48 ≤ c.toNat ∧ c.toNat ≤ 57 := by
  simp only [Char.isDigit, ge_iff_le, Bool.and_eq_true, decide_eq_true_eq] at h
  exact ⟨UInt32.le_iff_toNat_le.mp h.1, UInt32.le_iff_toNat_le.mp h.2⟩

theorem mem_str {n : Nat} {b : UInt8} (h : b ∈ str n) : 48 ≤ b.toNat ∧ b.toNat ≤ 57 := by
  obtain ⟨c, hc, rfl⟩ := List.mem_map.mp h
  have hd := Nat.isDigit_of_mem_toDigits (by decide) (by decide) hc
  rw [toUInt8_digit hd]
  exact digit_bounds hd

theorem not_mem_str {n : Nat} {b : UInt8} (h : b.toNat < 48 ∨ 57 < b.toNat) : b ∉ str n := by
  intro hb
  have := mem_str hb
  omega

theorem str_length_le {n : Nat} (h : n < 2 ^ 31) : (str n).length ≤ 10 := by
  rw [str, List.length_map]
  exact (Nat.length_toDigits_le_iff (by decide) (by decide)).mpr (by omega)

theorem str2numFrom_digits {cs : List Char} (hd : ∀ c ∈ cs, c.isDigit = true) {res : Nat}
    (h : res + Nat.ofDigitChars 10 cs 0 < 2 ^ 31) :
    str2numFrom res (cs.map Char.toUInt8) = .ok ((res + Nat.ofDigitChars 10 cs 0 : Nat) : Int) := by
  induction cs generalizing res with
  | nil => rfl
  | cons c cs ih =>
    have hc := hd c List.mem_cons_self
    have hbounds := digit_bounds hc
    have hvalue : Nat.ofDigitChars 10 (c :: cs) 0 =
        10 ^ cs.length * (c.toNat - 48) + Nat.ofDigitChars 10 cs 0 := by
      rw [Nat.ofDigitChars_cons, Nat.ofDigitChars_eq_ofDigitChars_zero]
      simp
    rw [hvalue] at h ⊢
    have hres : (res : Int) + 10 ^ (cs.map Char.toUInt8).length *
        ((c.toUInt8.toNat : Int) - 48) = ((res + 10 ^ cs.length * (c.toNat - 48) : Nat) : Int) := by
      rw [toUInt8_digit hc, List.length_map]
      push_cast [Int.natCast_sub hbounds.1]
      rfl
    rw [List.map_cons, str2numFrom, hres, if_pos (by omega),
      ih (fun c hc => hd c (List.mem_cons_of_mem _ hc)) (by omega), Nat.add_assoc]

theorem str2num_str {n : Nat} (h : n < 2 ^ 31) : str2num (str n) = .ok (n : Int) := by
  have hdigits := @str2numFrom_digits (Nat.toDigits 10 n)
    (fun c hc => Nat.isDigit_of_mem_toDigits (by decide) (by decide) hc) 0
    (by rw [Nat.ofDigitChars_ten_toDigits]; omega)
  rw [Nat.ofDigitChars_ten_toDigits, Nat.zero_add] at hdigits
  exact hdigits

theorem getLength_str {n : Nat} (h : n < 2 ^ 31) (rest : List UInt8) :
    getLength (str n ++ cr :: rest) = .ok (n : Int) := by
  have hline : (str n ++ cr :: rest).takeWhile (fun c => c != cr && c != lf) = str n := by
    rw [List.takeWhile_append_of_pos]
    · simp
    · intro b hb
      have hb := mem_str hb
      have hcr : b ≠ cr := fun heq => by rw [heq] at hb; exact absurd hb.1 (by decide)
      have hlf : b ≠ lf := fun heq => by rw [heq] at hb; exact absurd hb.1 (by decide)
      simp [hcr, hlf]
  have hlen := str_length_le h
  unfold getLength
  dsimp only
  rw [hline, if_pos ⟨by omega, by simp⟩, str2num_str h]

def headed (fileSize len : Nat) (rest : List UInt8) : List UInt8 :=
  keyTotal ++ (str fileSize ++ cr :: lf :: (keyLength ++ (str len ++ (headerEnd ++ rest))))

theorem package_eq (fileSize : Nat) (dat : List UInt8) :
    package fileSize dat = headed fileSize dat.length dat := by
  simp only [package, headed, keyTotal, keyLength, headerEnd, List.append_assoc]
  rfl

theorem headed_append (fileSize len : Nat) (rest more : List UInt8) :
    headed fileSize len rest ++ more = headed fileSize len (rest ++ more) := by
  simp [headed]

theorem zero_not_mem_str (n : Nat) : 0 ∉ str n := not_mem_str (by decide)

theorem cString_headed (fileSize len : Nat) (rest : List UInt8) :
    cString (headed fileSize len rest) = headed fileSize len (cString rest) := by
  have hcons (c : UInt8) (hc : c ≠ 0) (s : List UInt8) : cString (c :: s) = c :: cString s :=
    cString_append (s := [c]) (by simpa using hc.symm) s
  unfold headed
  rw [cString_append (by decide), cString_append (zero_not_mem_str _), hcons cr (by decide),
    hcons lf (by decide), cString_append (by decide), cString_append (zero_not_mem_str _),
    cString_append (by decide)]

theorem search_total (fileSize len : Nat) (rest : List UInt8) :
    search keyTotal (headed fileSize len rest) = some 0 := search_here _

theorem search_length (fileSize len : Nat) (rest : List UInt8) :
    search keyLength (headed fileSize len rest) = some (7 + (str fileSize).length + 2) := by
  have hkey : keyLength = 108 :: bytes "ength: " := rfl
  have hbegin : headed fileSize len rest = [116, 111, 116, 97] ++ 108 :: ([58, 32] ++
      (str fileSize ++ ([cr, lf] ++ (keyLength ++ (str len ++ (headerEnd ++ rest)))))) := rfl
  have hno (text : List UInt8) : ¬ keyLength <+: 108 :: ([58, 32] ++ text) := by
    rintro ⟨tail, htail⟩
    cases htail
  rw [hbegin, hkey, search_skip (by decide), ← hkey, search_next (hno _), hkey,
    search_skip (by decide), search_skip (not_mem_str (by decide)), search_skip (by decide),
    ← hkey, search_here]
  simp
  omega

theorem search_end (fileSize len : Nat) (rest : List UInt8) :
    search headerEnd (headed fileSize len rest) =
      some (7 + (str fileSize).length + 2 + 8 + (str len).length) := by
  have hkey : headerEnd = cr :: bytes "\n\r\n" := rfl
  have hno (text : List UInt8) : ¬ headerEnd <+: cr :: (lf :: (keyLength ++ text)) := by
    rintro ⟨tail, htail⟩
    cases htail
  unfold headed
  rw [hkey, search_skip (by decide), search_skip (not_mem_str (by decide)), ← hkey,
    search_next (hno _), hkey]
  rw [show ∀ text, lf :: (keyLength ++ text) = (lf :: keyLength) ++ text from fun _ => rfl,
    search_skip (by decide), search_skip (not_mem_str (by decide)), ← hkey, search_here]
  simp [keyTotal, keyLength, bytes]
  omega

theorem headed_length (fileSize len : Nat) (rest : List UInt8) :
    (headed fileSize len rest).length =
      7 + (str fileSize).length + 2 + 8 + (str len).length + 4 + rest.length := by
  simp [headed, keyTotal, keyLength, headerEnd, bytes]
  omega

section

variable {fileSize : Nat} {dat : List UInt8} {payloads : List (List UInt8)}

theorem fill_package (hp : payloads.flatten = package fileSize dat) (hsize : fileSize < 2 ^ 31)
    (hdat : dat.length ≤ packageSize) :
    ∃ zeros, fill payloads = headed fileSize dat.length (dat ++ zeros) := by
  have htotal := str_length_le hsize
  have hlen := str_length_le (n := dat.length) (by unfold packageSize at hdat; omega)
  have hfit : (headed fileSize dat.length dat).length ≤ recvBuffSize := by
    rw [headed_length]
    unfold packageSize at hdat
    unfold recvBuffSize
    omega
  refine ⟨List.replicate (recvBuffSize - (headed fileSize dat.length dat).length) 0, ?_⟩
  rw [fill, hp, package_eq, List.take_append, List.take_of_length_le hfit,
    List.take_replicate, headed_append]
  congr
  omega

theorem strstr_headed {key rest : List UInt8} {p len : Nat}
    (h : search key (headed fileSize len (cString rest)) = some p) :
    strstr (headed fileSize len rest) key = .ok (some p) := by
  rw [strstr, cString_headed, h]

theorem findTotal_headed {c : Client} (hc : c.totalLen = 0 ∨ c.totalLen = fileSize)
    (hsize : fileSize < 2 ^ 31) (len : Nat) (rest : List UInt8) :
    findTotal c (headed fileSize len rest) = .ok (some { c with totalLen := fileSize }) := by
  unfold findTotal
  split
  · have hdrop : (headed fileSize len rest).drop (0 + keyTotal.length) =
        str fileSize ++ cr :: lf :: (keyLength ++ (str len ++ (headerEnd ++ rest))) := by
      rw [Nat.zero_add]
      exact List.drop_left
    simp only [strstr_headed (search_total _ _ _), hdrop, getLength_str hsize, bind, Except.bind,
      pure, Except.pure]
  · rename_i hne
    rw [← hc.resolve_left hne]
    rfl

theorem getLength_headed {len : Nat} (hlen : len < 2 ^ 31) (rest : List UInt8) :
    getLength ((headed fileSize len rest).drop
      (7 + (str fileSize).length + 2 + keyLength.length)) = .ok (len : Int) := by
  have hdrop : (headed fileSize len rest).drop (7 + (str fileSize).length + 2 + keyLength.length) =
      str len ++ cr :: ([lf, cr, lf] ++ rest) := by
    have hsplit : headed fileSize len rest =
        (keyTotal ++ str fileSize ++ [cr, lf] ++ keyLength) ++
          (str len ++ cr :: ([lf, cr, lf] ++ rest)) := by
      simp only [headed, List.append_assoc]
      rfl
    rw [hsplit]
    refine List.drop_left' ?_
    simp [keyTotal, keyLength, bytes]
    omega
  rw [hdrop, getLength_str hlen]

theorem packData_headed (hdat : dat.length ≤ packageSize) (hsize : fileSize < 2 ^ 31)
    (zeros : List UInt8) :
    packData (headed fileSize dat.length (dat ++ zeros))
      (7 + (str fileSize).length + 2 + 8 + (str dat.length).length + headerEnd.length)
        dat.length = .ok dat := by
  have htotal := str_length_le hsize
  have hlen := str_length_le (n := dat.length) (by unfold packageSize at hdat; omega)
  have hsplit : headed fileSize dat.length (dat ++ zeros) =
      (keyTotal ++ str fileSize ++ [cr, lf] ++ keyLength ++ str dat.length ++ headerEnd) ++
        (dat ++ zeros) := by
    simp [headed]
  have hdrop : (headed fileSize dat.length (dat ++ zeros)).drop
      (7 + (str fileSize).length + 2 + 8 + (str dat.length).length + headerEnd.length) =
        dat ++ zeros := by
    rw [hsplit]
    refine List.drop_left' ?_
    simp [keyTotal, keyLength, headerEnd, bytes]
    omega
  have hend : headerEnd.length = 4 := rfl
  unfold packData
  rw [hdrop, if_pos ⟨by omega, by unfold packageSize at hdat; unfold recvBuffSize; omega⟩]
  simp

/-- A whole package in one netbuf is written as it was sent. -/
theorem receive_package {c : Client} (hc : c.totalLen = 0 ∨ c.totalLen = fileSize)
    (hsize : fileSize < 2 ^ 31) (hp : payloads.flatten = package fileSize dat)
    (hdat : dat.length ≤ packageSize) (writeOk : Bool) :
    receive c payloads writeOk = writeData { c with totalLen := fileSize } dat writeOk := by
  obtain ⟨zeros, hfill⟩ := fill_package hp hsize hdat
  have hlen : dat.length < 2 ^ 31 := by unfold packageSize at hdat; omega
  unfold receive
  simp only [hfill, findTotal_headed hc hsize, strstr_headed (search_length _ _ _),
    strstr_headed (search_end _ _ _), getLength_headed hlen, packData_headed hdat hsize, bind,
    Except.bind]

end

end Esp32Project.Ota
