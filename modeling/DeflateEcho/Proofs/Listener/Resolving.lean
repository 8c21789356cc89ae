import Mathlib
import DeflateEcho.Listener.Bind
import DeflateEcho.Proofs.Settings.CommandLine

/-!
# Proofs/Listener/Resolving — which address is listened on

What is listened on is an address, or else a name and a port with the last colon between them.  A
name stands for the first of the addresses that the machine knows for it, and each thing that can be
wrong is an error of its own: `Resolves` says so for all texts and all machines, and `resolve` is
this (`resolves_iff`).
-/

namespace DeflateEcho.Listener

open Settings

/-! ## Ports -/

/-- **How a port may be written**: in decimal digits, with or without a plus. -/
inductive PortText (n : Nat) : List Char → Prop where
  | digits {ds : List Char} (hne : ds ≠ []) (hds : ∀ c ∈ ds, c.isDigit)
    (hn : Nat.ofDigitChars 10 ds 0 = n) : PortText n ds
  | plus {ds : List Char} (hne : ds ≠ []) (hds : ∀ c ∈ ds, c.isDigit)
    (hn : Nat.ofDigitChars 10 ds 0 = n) : PortText n ('+' :: ds)

theorem PortText.colon_notMem {n : Nat} {port : List Char} (h : PortText n port) : ':' ∉ port := by
  have hdigits : ∀ {ds : List Char}, (∀ c ∈ ds, c.isDigit) → ':' ∉ ds := fun hds hmem =>
    absurd (hds ':' hmem) (by decide)
  cases h with
  | digits _ hds => exact hdigits hds
  | plus _ hds => exact List.not_mem_cons_of_ne_of_not_mem (by decide) (hdigits hds)

theorem isDigit_of_decimalBelow {bound n m : Nat} {ds : List Char}
    (h : decimalBelow bound n ds = .ok m) : ∀ c ∈ ds, c.isDigit := by
  induction ds generalizing n with
  | nil => simp
  | cons c ds ih =>
    simp only [decimalBelow] at h
    split at h
    · next hc =>
      split at h
      · exact List.forall_mem_cons.mpr ⟨hc, ih h⟩
      · cases h
    · cases h

theorem decimalBelow_eq_ok_iff {bound : Nat} (hbound : 0 < bound) {ds : List Char} {n : Nat} :
    decimalBelow bound 0 ds = .ok n ↔
      (∀ c ∈ ds, c.isDigit) ∧ Nat.ofDigitChars 10 ds 0 = n ∧ n < bound := by
  constructor
  · intro h
    have hds := isDigit_of_decimalBelow h
    rw [decimalBelow_eq hbound hds] at h
    split at h
    · next hlt =>
      obtain rfl := Except.ok.inj h
      exact ⟨hds, rfl, hlt⟩
    · cases h
  · rintro ⟨hds, rfl, hlt⟩
    rw [decimalBelow_eq hbound hds, if_pos hlt]

/-- **A port is read just if it is written in this way**, and below the bound. -/
theorem portText_iff {bound : Nat} (hbound : 0 < bound) {port : List Char} {n : Nat} :
    PortText n port ∧ n < bound ↔ numberBelow bound (String.ofList port) = .ok n := by
  constructor
  · rintro ⟨hport, hlt⟩
    cases hport with
    | digits hne hds hn =>
      rw [numberBelow_digits bound hne hds, decimalBelow_eq_ok_iff hbound]
      exact ⟨hds, hn, hlt⟩
    | plus hne hds hn =>
      rw [numberBelow_plus bound hne, decimalBelow_eq_ok_iff hbound]
      exact ⟨hds, hn, hlt⟩
  · intro h
    rw [numberBelow, String.toList_ofList] at h
    split at h
    · cases h
    · cases h
    · next ds hne =>
      obtain ⟨hds, hn, hlt⟩ := (decimalBelow_eq_ok_iff hbound).mp h
      exact ⟨.plus (by rintro rfl; exact hne rfl) hds hn, hlt⟩
    · next hne _ _ =>
      obtain ⟨hds, hn, hlt⟩ := (decimalBelow_eq_ok_iff hbound).mp h
      exact ⟨.digits hne hds hn, hlt⟩

/-! ## The last colon -/

theorem splitAtLastColon_of_notMem {text : List Char} (h : ':' ∉ text) :
    splitAtLastColon text = none := by
  have hall : text.reverse.takeWhile (fun c => decide (c ≠ ':')) = text.reverse :=
    List.takeWhile_eq_self_iff.mpr fun c hc => decide_eq_true
      (ne_of_mem_of_not_mem (List.mem_reverse.mp hc) h)
  simp only [splitAtLastColon, hall, List.reverse_reverse, Nat.lt_irrefl, if_false]

theorem splitAtLastColon_append (name : List Char) {port : List Char} (h : ':' ∉ port) :
    splitAtLastColon (name ++ ':' :: port) = some (name, port) := by
  have hbehind : (name ++ ':' :: port).reverse.takeWhile (fun c => decide (c ≠ ':')) =
      port.reverse := by
    rw [List.reverse_append, List.reverse_cons, List.append_assoc,
      List.takeWhile_append_of_pos fun c hc => decide_eq_true
        (ne_of_mem_of_not_mem (List.mem_reverse.mp hc) h)]
    simp
  have hlength : (name ++ ':' :: port).length - port.length - 1 = name.length := by
    simp only [List.length_append, List.length_cons]
    omega
  simp only [splitAtLastColon, hbehind, List.reverse_reverse]
  rw [if_pos (by simp only [List.length_append, List.length_cons]; omega), hlength,
    List.take_left]

theorem exists_last_colon {text : List Char} (h : ':' ∈ text) :
    ∃ name port, text = name ++ ':' :: port ∧ ':' ∉ port := by
  obtain ⟨behind, front, htext, hbehind⟩ := List.eq_append_cons_of_mem (List.mem_reverse.mpr h)
  refine ⟨front.reverse, behind.reverse, ?_, by simpa using hbehind⟩
  simpa using congrArg List.reverse htext

/-! ## Resolving -/

/-- **Which address is listened on**, or what is wrong, on a machine that knows these hosts. -/
inductive Resolves (hosts : HostTable) : String → Except ServerError SocketAddress → Prop where
  | address {listen : String} {address : SocketAddress}
    (h : SocketAddress.parse? listen = some address) : Resolves hosts listen (.ok address)
  | noColon {listen : String} (h : SocketAddress.parse? listen = none)
    (hcolon : ':' ∉ listen.toList) :
    Resolves hosts listen (.error (.resolve listen "invalid socket address"))
  | noPort {name port : List Char}
    (h : SocketAddress.parse? (String.ofList (name ++ ':' :: port)) = none) (hcolon : ':' ∉ port)
    (hport : ∀ n < 65536, ¬ PortText n port) :
    Resolves hosts (String.ofList (name ++ ':' :: port))
      (.error (.resolve (String.ofList (name ++ ':' :: port)) "invalid port value"))
  /-- The name of the host is not known. -/
  | unknown {name port : List Char} {n : Nat} {reason : String}
    (h : SocketAddress.parse? (String.ofList (name ++ ':' :: port)) = none)
    (hport : PortText n port) (hn : n < 65536)
    (hhosts : hosts (String.ofList name) = .error reason) :
    Resolves hosts (String.ofList (name ++ ':' :: port))
      (.error (.resolve (String.ofList (name ++ ':' :: port)) reason))
  | noAddress {name port : List Char} {n : Nat}
    (h : SocketAddress.parse? (String.ofList (name ++ ':' :: port)) = none)
    (hport : PortText n port) (hn : n < 65536) (hhosts : hosts (String.ofList name) = .ok []) :
    Resolves hosts (String.ofList (name ++ ':' :: port))
      (.error (.noAddress (String.ofList (name ++ ':' :: port))))
  /-- The host has addresses, of which the first counts. -/
  | host {name port : List Char} {n : Nat} {first : HostAddress} {others : List HostAddress}
    (h : SocketAddress.parse? (String.ofList (name ++ ':' :: port)) = none)
    (hport : PortText n port) (hn : n < 65536)
    (hhosts : hosts (String.ofList name) = .ok (first :: others)) :
    Resolves hosts (String.ofList (name ++ ':' :: port)) (.ok ⟨first, n⟩)

/-- A name with a port is looked up. -/
theorem Target.parse_of_port {name port : List Char} {n : Nat}
    (h : SocketAddress.parse? (String.ofList (name ++ ':' :: port)) = none)
    (hport : PortText n port) (hn : n < 65536) :
    Target.parse (String.ofList (name ++ ':' :: port)) = .ok (.host (String.ofList name) n) := by
  have hnumber : numberBelow 65536 (String.ofList port) = .ok n :=
    (portText_iff (by decide)).mp ⟨hport, hn⟩
  simp only [Target.parse, h, String.toList_ofList,
    splitAtLastColon_append name hport.colon_notMem, hnumber]

theorem resolve_of_resolves {hosts : HostTable} {listen : String}
    {result : Except ServerError SocketAddress} (h : Resolves hosts listen result) :
    resolve hosts listen = result := by
  cases h with
  | address h => simp only [resolve, Target.parse, h]
  | noColon h hcolon => simp only [resolve, Target.parse, h, splitAtLastColon_of_notMem hcolon]
  | @noPort name port h hcolon hport =>
    cases hnumber : numberBelow 65536 (String.ofList port) with
    | error error =>
      simp only [resolve, Target.parse, h, String.toList_ofList,
        splitAtLastColon_append name hcolon, hnumber]
    | ok n =>
      obtain ⟨hwritten, hlt⟩ := (portText_iff (by decide)).mpr hnumber
      exact absurd hwritten (hport n hlt)
  | unknown h hport hn hhosts => simp only [resolve, Target.parse_of_port h hport hn, hhosts]
  | noAddress h hport hn hhosts => simp only [resolve, Target.parse_of_port h hport hn, hhosts]
  | host h hport hn hhosts => simp only [resolve, Target.parse_of_port h hport hn, hhosts]

/-- **Each text stands for one thing**, which is what it is resolved to. -/
theorem resolves_iff {hosts : HostTable} {listen : String}
    {result : Except ServerError SocketAddress} :
    Resolves hosts listen result ↔ resolve hosts listen = result := by
  refine ⟨resolve_of_resolves, ?_⟩
  have hsome : ∃ result, Resolves hosts listen result := by
    cases h : SocketAddress.parse? listen with
    | some address => exact ⟨_, .address h⟩
    | none =>
      by_cases hcolon : ':' ∈ listen.toList
      · obtain ⟨name, port, hlisten, hbehind⟩ := exists_last_colon hcolon
        obtain rfl : listen = String.ofList (name ++ ':' :: port) := by
          rw [← hlisten, String.ofList_toList]
        by_cases hport : ∃ n, PortText n port ∧ n < 65536
        · obtain ⟨n, hport, hn⟩ := hport
          rcases hhosts : hosts (String.ofList name) with reason | _ | ⟨first, others⟩
          · exact ⟨_, .unknown h hport hn hhosts⟩
          · exact ⟨_, .noAddress h hport hn hhosts⟩
          · exact ⟨_, .host h hport hn hhosts⟩
        · exact ⟨_, .noPort h hbehind fun n hn hwritten => hport ⟨n, hwritten, hn⟩⟩
      · exact ⟨_, .noColon h hcolon⟩
  rintro rfl
  obtain ⟨result, hresult⟩ := hsome
  rwa [resolve_of_resolves hresult]

end DeflateEcho.Listener
