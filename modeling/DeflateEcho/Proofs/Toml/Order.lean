import Mathlib
import DeflateEcho.Proofs.Toml.Exchange

/-!
# Proofs/Toml/Order — where keys stand

Every line of a file **mentions** one address, and a header that is not for a list opens the table
there.  A table has its keys in the order in which the mentions that lead into it come up for the
first time, however these are spread over headers, dotted keys and single ones (`keysAt_of_lines`),
but for a key whose table a header opens: it stands where this header puts it, even if a longer
header came before (`inOrder_foldl_comeUp`).

A line does just this to the keys of a table: it appends the key that its mention goes on with behind
the address of the table, if the table does not have it, and moves it to the end where it opens the
table at it (`Mentions`).  Only a header that adds a table to a list starts anew, at its own address
and below.
-/

namespace DeflateEcho.Toml

/-! ## Mentions that come up -/

/-- What a line says of an address. -/
structure Mention where
  name : List String
  /-- A header opens the table there. -/
  opens : Bool
  deriving DecidableEq, Repr

/-- A header for the table at a key. -/
def Mention.opening (key : String) : Mention := ⟨[key], true⟩

/-- The keys of a table once a mention in it has come up: a new key goes to the end, and so does one
whose table is opened. -/
def comeUp (keys : List String) (m : Mention) : List String :=
  match m.name with
  | [] => keys
  | key :: _ =>
    if key ∈ keys ∧ m ≠ .opening key then keys else keys.filter (fun k => k ≠ key) ++ [key]

/-- Where a key comes up first. -/
def firstUse (mentions : List Mention) (key : String) : Nat :=
  mentions.findIdx fun m => m.name.head? = some key

/-- **Where a key stands** among mentions: where a header opens its table, or, if none does, where it
comes up first. -/
def placeOf (mentions : List Mention) (key : String) : Nat :=
  if .opening key ∈ mentions then mentions.idxOf (.opening key) else firstUse mentions key

/-- No table is opened twice. -/
def OpensOnce (mentions : List Mention) : Prop :=
  ∀ key, ¬ List.Duplicate (.opening key) mentions

theorem mem_comeUp {keys : List String} {m : Mention} {key : String} :
    key ∈ comeUp keys m ↔ key ∈ keys ∨ m.name.head? = some key := by
  rw [comeUp]
  split
  · next hname => simp [hname]
  · next k name hname =>
    rw [hname, List.head?_cons, Option.some.injEq]
    split
    · next hk => exact ⟨.inl, fun h => h.elim id fun h => h ▸ hk.1⟩
    · by_cases hkey : key = k <;> simp [hkey, eq_comm]

theorem mem_foldl_comeUp {mentions : List Mention} {key : String} :
    key ∈ mentions.foldl comeUp [] ↔ ∃ m ∈ mentions, m.name.head? = some key := by
  induction mentions using List.reverseRecOn with
  | nil => simp
  | append_singleton mentions m ih =>
    rw [List.foldl_append, List.foldl_cons, List.foldl_nil, mem_comeUp, ih]
    simp [or_and_right, exists_or]

section Places

variable {mentions : List Mention} {key : String}

/-- What has come up stands before what is still to come. -/
theorem placeOf_lt (h : ∃ m ∈ mentions, m.name.head? = some key) :
    placeOf mentions key < mentions.length := by
  rw [placeOf]
  split
  · next hopened => exact List.idxOf_lt_length_of_mem hopened
  · exact List.findIdx_lt_length.mpr (by simpa using h)

/-- It stays there, unless a header opens its table. -/
theorem placeOf_append (h : ∃ m ∈ mentions, m.name.head? = some key) {m : Mention}
    (hm : m ≠ .opening key) : placeOf (mentions ++ [m]) key = placeOf mentions key := by
  have hopening : .opening key ∈ mentions ++ [m] ↔ .opening key ∈ mentions := by
    simp [hm.symm]
  rw [placeOf, placeOf]
  simp only [hopening]
  split
  · next hopened => exact List.idxOf_append_of_mem hopened
  · rw [firstUse, firstUse, List.findIdx_append]
    exact if_pos (List.findIdx_lt_length.mpr (by simpa using h))

theorem OpensOnce.of_append {others : List Mention} (h : OpensOnce (mentions ++ others)) :
    OpensOnce mentions := fun key hdup =>
  h key (hdup.mono_sublist (List.sublist_append_left mentions others))

theorem OpensOnce.notMem (h : OpensOnce (mentions ++ [.opening key])) :
    .opening key ∉ mentions := fun hmem =>
  h key (List.duplicate_iff_sublist.mpr
    (.append (List.singleton_sublist.mpr hmem) (.refl [Mention.opening key])))

/-- Mentions that open nothing may follow. -/
theorem OpensOnce.append (h : OpensOnce mentions) {others : List Mention}
    (hothers : ∀ m ∈ others, m.opens = false) : OpensOnce (mentions ++ others) := by
  intro key hdup
  have hnone : .opening key ∉ others := fun hmem => by
    simpa [Mention.opening] using hothers _ hmem
  rw [List.duplicate_iff_two_le_count, List.count_append, List.count_eq_zero.mpr hnone,
    Nat.add_zero] at hdup
  exact h key (List.duplicate_iff_two_le_count.mpr hdup)

/-- A key that comes up for the first time, or whose table is opened, stands behind all others. -/
theorem placeOf_last {m : Mention} (h : OpensOnce (mentions ++ [m]))
    (hm : m.name.head? = some key)
    (hnew : m ≠ .opening key → ¬ ∃ m ∈ mentions, m.name.head? = some key) :
    placeOf (mentions ++ [m]) key = mentions.length := by
  rw [placeOf]
  by_cases hopens : m = .opening key
  · subst hopens
    rw [if_pos (by simp), List.idxOf_append_of_notMem h.notMem]
    simp
  · have hopened : .opening key ∉ mentions := fun hmem => hnew hopens ⟨_, hmem, rfl⟩
    rw [if_neg (by simpa [hopened] using Ne.symm hopens), firstUse, List.findIdx_append,
      if_neg fun hlt => hnew hopens (by simpa using List.findIdx_lt_length.mp hlt)]
    simp [List.findIdx_cons, hm]

/-- **Keys stand in the order of their places.** -/
def InOrder (mentions : List Mention) (keys : List String) : Prop :=
  keys.Pairwise fun k k' => placeOf mentions k < placeOf mentions k'

section InOrder

variable {keys : List String} {m : Mention}
  (hup : ∀ k ∈ keys, ∃ m ∈ mentions, m.name.head? = some k)
include hup

/-- They still do once more is mentioned, if this opens none of their tables. -/
theorem InOrder.kept (h : InOrder mentions keys) (hm : ∀ k ∈ keys, m ≠ .opening k) :
    InOrder (mentions ++ [m]) keys := by
  refine h.imp_of_mem fun hk hk' hlt => ?_
  rwa [placeOf_append (hup _ hk) (hm _ hk), placeOf_append (hup _ hk') (hm _ hk')]

/-- A key may go to the end if it stands there. -/
theorem InOrder.moved (h : InOrder mentions keys)
    (hlast : placeOf (mentions ++ [m]) key = mentions.length)
    (hm : ∀ k ∈ keys, k ≠ key → m ≠ .opening k) :
    InOrder (mentions ++ [m]) (keys.filter (fun k => k ≠ key) ++ [key]) := by
  have hothers : ∀ k ∈ keys.filter (fun k => k ≠ key), k ∈ keys ∧ k ≠ key := fun k hk => by
    simpa using hk
  have hkept : InOrder (mentions ++ [m]) (keys.filter fun k => k ≠ key) :=
    InOrder.kept (fun k hk => hup k (hothers k hk).1) (h.sublist List.filter_sublist)
      fun k hk => hm k (hothers k hk).1 (hothers k hk).2
  refine List.pairwise_append.mpr ⟨hkept, List.pairwise_singleton _ _, fun k hk k' hk' => ?_⟩
  obtain rfl := List.mem_singleton.mp hk'
  obtain ⟨hmem, hne⟩ := hothers k hk
  rw [hlast, placeOf_append (hup k hmem) (hm k hmem hne)]
  exact placeOf_lt (hup k hmem)

end InOrder

end Places

/-- **Keys that come up stand in the order of their places**, if no table is opened twice. -/
theorem inOrder_foldl_comeUp {mentions : List Mention} (h : OpensOnce mentions) :
    InOrder mentions (mentions.foldl comeUp []) := by
  induction mentions using List.reverseRecOn with
  | nil => exact .nil
  | append_singleton mentions m ih =>
    have hup : ∀ k ∈ mentions.foldl comeUp [], ∃ m ∈ mentions, m.name.head? = some k :=
      fun k hk => mem_foldl_comeUp.mp hk
    have hordered := ih h.of_append
    rw [List.foldl_append, List.foldl_cons, List.foldl_nil, comeUp]
    split
    · next hname =>
      exact hordered.kept hup fun k _ hm => by simp [hm, Mention.opening] at hname
    · next key name hname =>
      have hopens : ∀ k, m = .opening k → k = key := fun k hm => by
        simpa [hm, Mention.opening] using congrArg List.head? hname
      split
      · next hold => exact hordered.kept hup fun k _ hm => hold.2 (hopens k hm ▸ hm)
      · next hmoved =>
        have hlast : placeOf (mentions ++ [m]) key = mentions.length :=
          placeOf_last h (by simp [hname]) fun hm hup => hmoved ⟨mem_foldl_comeUp.mpr hup, hm⟩
        exact hordered.moved hup hlast fun k _ hne hm => hne (hopens k hm)

/-! ## The keys at an address -/

/-- The keys of the table at an address, if there is one; of a list of tables the last is meant. -/
def keysAt : (address : List String) → Entries → List String
  | [], entries => entries.keys
  | key :: a, entries =>
    ((entries.find? key).bind Node.inside).elim [] fun inner => keysAt a inner.2

@[simp] theorem keysAt_nil (a : List String) : keysAt a [] = [] := by cases a <;> rfl

theorem keys_put_of_mem {entries : Entries} {key : String} (h : key ∈ entries.keys) (node : Node) :
    (entries.put key node).keys = entries.keys := by
  induction entries with
  | nil => cases h
  | cons entry entries ih =>
    by_cases hentry : entry.1 = key
    · simp [Entries.put, Entries.keys, hentry]
    · have hmem : key ∈ Entries.keys entries := (List.mem_cons.mp h).resolve_left (Ne.symm hentry)
      rw [Entries.put, if_neg hentry]
      exact congrArg (entry.1 :: ·) (ih hmem)

theorem keys_put (entries : Entries) {key : String} (node : Node) {m : Mention}
    {name : List String} (hname : m.name = key :: name) (hm : m ≠ .opening key) :
    (entries.put key node).keys = comeUp entries.keys m := by
  rw [comeUp, hname]
  dsimp only
  split
  · next hmem => exact keys_put_of_mem hmem.1 node
  · next hnew =>
    have hfresh : key ∉ entries.keys := fun hmem => hnew ⟨hmem, hm⟩
    rw [Entries.put_of_find?_eq_none (find?_eq_none_iff.mpr hfresh),
      List.filter_eq_self.mpr fun k hk => decide_eq_true (ne_of_mem_of_not_mem hk hfresh)]
    simp [Entries.keys]

theorem keys_putLast_opening (entries : Entries) (key : String) (node : Node) :
    (entries.putLast key node).keys = comeUp entries.keys (.opening key) := by
  rw [Entries.keys_putLast, comeUp]
  exact (if_neg fun h => h.2 rfl).symm

section Put

variable {entries entries' : Entries} {key : String} {node : Node}
  (hput : ∀ k, entries'.find? k = if k = key then some node else entries.find? k)
include hput

theorem keysAt_put_self {origin : Origin} {inner : Entries}
    (h : node.inside = some (origin, inner)) (a : List String) :
    keysAt (key :: a) entries' = keysAt a inner := by
  rw [keysAt, hput, if_pos rfl, Option.bind_some, h]
  rfl

theorem keysAt_put_other {k : String} (hk : k ≠ key) (a : List String) :
    keysAt (k :: a) entries' = keysAt (k :: a) entries := by
  rw [keysAt, keysAt, hput, if_neg hk]

end Put

/-! ## Changes and what they mention -/

/-- What a mention says behind an address, if it goes on there. -/
def Mention.behind? (a : List String) (m : Mention) : Option Mention :=
  (m.name.dropPrefix? a).map fun name => { m with name }

/-- The keys at an address once a mention has come up in the table around. -/
def comeUpAt (a keys : List String) (m : Mention) : List String :=
  (m.behind? a).elim keys (comeUp keys)

theorem comeUpAt_nil (keys : List String) (m : Mention) : comeUpAt [] keys m = comeUp keys m := by
  simp [comeUpAt, Mention.behind?]

theorem comeUpAt_of_name_nil (a keys : List String) (opens : Bool) :
    comeUpAt a keys ⟨[], opens⟩ = keys := by cases a <;> rfl

theorem comeUpAt_cons_self (key : String) (a keys name : List String) (opens : Bool) :
    comeUpAt (key :: a) keys ⟨key :: name, opens⟩ = comeUpAt a keys ⟨name, opens⟩ := by
  simp [comeUpAt, Mention.behind?, List.dropPrefix?]

theorem comeUpAt_cons_other {key k : String} (hk : k ≠ key) (a keys name : List String)
    (opens : Bool) : comeUpAt (k :: a) keys ⟨key :: name, opens⟩ = keys := by
  simp [comeUpAt, Mention.behind?, List.dropPrefix?, hk.symm]

/-- **A change does to keys what its mention says**; one that renews what stands at the address does
so at all other addresses. -/
def Mentions (renews : Prop) (change : Change) (m : Mention) : Prop :=
  ∀ (origin : Origin) (entries entries' : Entries), change origin entries = some entries' →
    ∀ a, (renews → ¬ m.name <+: a) → keysAt a entries' = comeUpAt a (keysAt a entries) m

/-- What is left to show of a change that puts something at one key. -/
theorem keysAt_put {renews : Prop} {entries entries' : Entries} {key : String} {node : Node}
    {name : List String} {opens : Bool} {a : List String}
    (hput : ∀ k, entries'.find? k = if k = key then some node else entries.find? k)
    (hkeys : entries'.keys = comeUp entries.keys ⟨key :: name, opens⟩)
    (ha : renews → ¬ key :: name <+: a)
    (h : ∀ b, (renews → ¬ name <+: b) →
      keysAt (key :: b) entries' = comeUpAt b (keysAt (key :: b) entries) ⟨name, opens⟩) :
    keysAt a entries' = comeUpAt a (keysAt a entries) ⟨key :: name, opens⟩ := by
  cases a with
  | nil =>
    rw [comeUpAt_nil]
    exact hkeys
  | cons k b =>
    by_cases hk : k = key
    · subst hk
      rw [comeUpAt_cons_self]
      exact h b fun hrenews hb => ha hrenews (List.cons_prefix_cons.mpr ⟨rfl, hb⟩)
    · rw [comeUpAt_cons_other hk, keysAt_put_other hput hk]

theorem mentions_openTable (key : String) : Mentions False (openTable key) (.opening key) := by
  intro origin entries entries' h a _
  have hopen : ∀ inner, (∀ b, keysAt (key :: b) entries = keysAt b inner) →
      keysAt a (entries.putLast key (.table .header inner)) =
        comeUpAt a (keysAt a entries) (.opening key) := fun inner hinner => by
    refine keysAt_put (entries.find?_putLast key _) (keys_putLast_opening entries key _)
      (fun hno : False => hno.elim) fun b _ => ?_
    rw [comeUpAt_of_name_nil, hinner b]
    exact keysAt_put_self (entries.find?_putLast key _) rfl b
  rw [openTable.eq_def] at h
  split at h
  · next hfind =>
    refine Option.some.inj h ▸ hopen [] fun b => ?_
    rw [keysAt, hfind, keysAt_nil]
    rfl
  · next inner hfind =>
    refine Option.some.inj h ▸ hopen inner fun b => ?_
    rw [keysAt, hfind]
    rfl
  · cases h

theorem mentions_openElement (key : String) :
    Mentions True (openElement key) ⟨[key], false⟩ := by
  intro origin entries entries' h a ha
  have hput : ∀ elements, keysAt a (entries.put key (.tables elements)) =
      comeUpAt a (keysAt a entries) ⟨[key], false⟩ := fun elements =>
    keysAt_put (entries.find?_put key _) (keys_put entries _ rfl (by simp [Mention.opening])) ha
      fun b hb => absurd b.nil_prefix (hb trivial)
  rw [openElement.eq_def] at h
  split at h
  · exact Option.some.inj h ▸ hput _
  · exact Option.some.inj h ▸ hput _
  · cases h

theorem mentions_putValue (dotted : Bool) (key : String) (v : Value) :
    Mentions False (putValue dotted key v) ⟨[key], false⟩ := by
  intro origin entries entries' h a _
  rw [putValue.eq_def] at h
  split at h
  · cases h
  split at h
  · next hfind =>
    obtain rfl := Option.some.inj h
    refine keysAt_put (entries.find?_put key _) (keys_put entries _ rfl (by simp [Mention.opening]))
      False.elim fun b _ => ?_
    rw [comeUpAt_of_name_nil, keysAt, keysAt, Entries.find?_put, if_pos rfl, hfind]
    rfl
  · cases h

/-- Where a change at the end of a path is carried out, it is in the table behind the first key. -/
theorem exists_inner_of_changeAt {dotted : Bool} {change : Change} {key : String}
    {path : List String} {origin : Origin} {entries entries' : Entries}
    (h : changeAt dotted change (key :: path) origin entries = some entries') :
    ∃ (node : Node) (o : Origin) (inner inner' : Entries), node.inside = some (o, inner) ∧
      changeAt dotted change path o inner = some inner' ∧
      entries' = entries.put key (node.refill inner') ∧
      ∀ a, keysAt (key :: a) entries = keysAt a inner := by
  rw [changeAt.eq_def] at h
  dsimp only at h
  simp only [keysAt]
  split at h
  · next hfind =>
    obtain ⟨inner', hinner, heq⟩ := Option.bind_eq_some_iff.mp h
    refine ⟨.table (if dotted then .dotted else .implied) [], _, [], inner', rfl, hinner,
      (Option.some.inj heq).symm, fun a => ?_⟩
    rw [hfind, keysAt_nil]
    rfl
  · cases h
  · cases h
  · next last earlier hfind =>
    obtain ⟨inner', hinner, heq⟩ := Option.bind_eq_some_iff.mp h
    exact ⟨.tables (last :: earlier), _, last, inner', rfl, hinner, (Option.some.inj heq).symm,
      fun a => by rw [hfind]; rfl⟩
  · next o inner hfind =>
    split at h
    · cases h
    · obtain ⟨inner', hinner, heq⟩ := Option.bind_eq_some_iff.mp h
      exact ⟨.table o inner, _, inner, inner', rfl, hinner, (Option.some.inj heq).symm,
        fun a => by rw [hfind]; rfl⟩

/-- **A change at the end of a path** mentions the path and what is behind it; what it opens is
there, and not on the way. -/
theorem Mentions.changeAt {renews : Prop} {change : Change} {m : Mention}
    (h : Mentions renews change m) (hm : m.opens → m.name ≠ []) (dotted : Bool)
    (path : List String) :
    Mentions renews (changeAt dotted change path) { m with name := path ++ m.name } := by
  induction path with
  | nil => exact h
  | cons key path ih =>
    intro origin entries entries' hentries a ha
    obtain ⟨node, o, inner, inner', hnode, hinner, rfl, hkeys⟩ := exists_inner_of_changeAt hentries
    have hopens : (⟨key :: (path ++ m.name), m.opens⟩ : Mention) ≠ .opening key := fun heq => by
      obtain ⟨hname, hopens⟩ := Mention.mk.inj heq
      exact hm hopens (List.append_eq_nil_iff.mp (List.cons.inj hname).2).2
    refine keysAt_put (entries.find?_put key _) (keys_put entries _ rfl hopens) ha fun b hb => ?_
    rw [keysAt_put_self (entries.find?_put key _) (Node.inside_refill hnode inner'), hkeys b]
    exact ih o inner inner' hinner b hb

theorem mentions_assign (path : List String) (v : Value) :
    Mentions False (assign path v) ⟨path, false⟩ := by
  obtain rfl | ⟨tables, key, rfl⟩ := path.eq_nil_or_concat'
  · intro origin entries entries' h
    cases h
  · intro origin entries entries' h
    rw [assign, List.reverse_concat] at h
    dsimp only at h
    rw [List.reverse_reverse] at h
    exact (mentions_putValue _ key v).changeAt (by simp) true tables origin entries entries' h

theorem keysAt_changeParent {renews : Prop} {change : String → Change} {opens : Bool}
    (h : ∀ key, Mentions renews (change key) ⟨[key], opens⟩) {path : List String}
    {entries entries' : Entries} (hentries : changeParent change path entries = some entries')
    {a : List String} (ha : renews → ¬ path <+: a) :
    keysAt a entries' = comeUpAt a (keysAt a entries) ⟨path, opens⟩ := by
  obtain rfl | ⟨tables, key, rfl⟩ := path.eq_nil_or_concat'
  · cases hentries
  · rw [changeParent_concat] at hentries
    exact (h key).changeAt (by simp) false tables .header entries entries' hentries a ha

/-! ## Files -/

section Lines

variable {α : Type} {header : List String} {lines : List (Line α)}

/-- What a line mentions, where a header is in force. -/
def Line.mention (header : List String) : Line α → Mention
  | .table path => ⟨path, true⟩
  | .element path => ⟨path, false⟩
  | .assignment path _ => ⟨header ++ path, false⟩

/-- **What lines mention**, in the order in which they stand. -/
def mentionsFrom (header : List String) : List (Line α) → List Mention
  | [] => []
  | line :: lines => line.mention header :: mentionsFrom (line.header header) lines

/-- What mentions say about an address: they go on behind it. -/
def mentionsBehind (a : List String) (mentions : List Mention) : List Mention :=
  mentions.filterMap (Mention.behind? a)

@[simp] theorem mentionsBehind_nil (mentions : List Mention) :
    mentionsBehind [] mentions = mentions := by
  have hall : Mention.behind? [] = some := by
    funext m
    simp [Mention.behind?]
  rw [mentionsBehind, hall, List.filterMap_some]

theorem foldl_comeUpAt (a : List String) (mentions : List Mention) (keys : List String) :
    mentions.foldl (comeUpAt a) keys = (mentionsBehind a mentions).foldl comeUp keys := by
  rw [mentionsBehind, List.foldl_filterMap]
  congr 1
  funext keys m
  rw [comeUpAt]
  cases m.behind? a <;> rfl

/-- A statement does to keys what it mentions. -/
theorem Document.keysAt_add {d d' : Document} {s : Statement} (h : d.add s = some d')
    {a : List String} (ha : ∀ path, s = .elementHeader path → ¬ path <+: a) :
    keysAt a d'.entries = comeUpAt a (keysAt a d.entries) (s.line.mention d.current) ∧
      d'.current = s.line.header d.current := by
  cases s with
  | tableHeader path =>
    obtain ⟨entries, hentries, rfl⟩ := Option.map_eq_some_iff.mp h
    exact ⟨keysAt_changeParent mentions_openTable hentries False.elim, rfl⟩
  | elementHeader path =>
    obtain ⟨entries, hentries, rfl⟩ := Option.map_eq_some_iff.mp h
    exact ⟨keysAt_changeParent mentions_openElement hentries fun _ => ha path rfl, rfl⟩
  | assignment path v =>
    obtain ⟨entries, hentries, rfl⟩ := Option.map_eq_some_iff.mp h
    exact ⟨(mentions_assign path v).changeAt nofun false d.current _ _ _ hentries a False.elim, rfl⟩

/-- **So do all statements of a file**, one after the other. -/
theorem keysAt_foldlM_add {statements : List Statement} {d d' : Document}
    (h : statements.foldlM Document.add d = some d') {a : List String}
    (ha : ∀ path, .elementHeader path ∈ statements → ¬ path <+: a) :
    keysAt a d'.entries =
      (mentionsFrom d.current (statements.map Statement.line)).foldl (comeUpAt a)
        (keysAt a d.entries) := by
  induction statements generalizing d with
  | nil =>
    obtain rfl := Option.some.inj h
    rfl
  | cons s statements ih =>
    rw [List.foldlM_cons] at h
    obtain ⟨next, hnext, hrest⟩ := Option.bind_eq_some_iff.mp h
    obtain ⟨hkeys, hcurrent⟩ := Document.keysAt_add hnext fun path hs => ha path (hs ▸ by simp)
    rw [List.map_cons, mentionsFrom, List.foldl_cons, ← hkeys, ← hcurrent]
    exact ih hrest fun path hpath => ha path (List.mem_cons_of_mem _ hpath)

/-- What lines mention does not depend on what the contents are. -/
theorem mentionsFrom_map (read : α → Value) (header : List String) (lines : List (Line α)) :
    mentionsFrom header (lines.map (Line.map read)) = mentionsFrom header lines := by
  induction lines generalizing header with
  | nil => rfl
  | cons line lines ih =>
    have hmention : (line.map read).mention header = line.mention header := by cases line <;> rfl
    have hheader : (line.map read).header header = line.header header := by cases line <;> rfl
    rw [List.map_cons, mentionsFrom, mentionsFrom, hmention, hheader, ih]

/-- **The keys of a table are those that come up behind its address**, in this order, unless the
address is in a list of tables. -/
theorem keysAt_of_lines {read : α → Value} {d : Document}
    (hd : (lines.map fun line => (line.map read).statement).foldlM Document.add {} = some d)
    {a : List String} (ha : ∀ path, .element path ∈ lines → ¬ path <+: a) :
    keysAt a d.entries = (mentionsBehind a (mentionsFrom [] lines)).foldl comeUp [] := by
  have hkeys := keysAt_foldlM_add hd fun path hpath => by
    obtain ⟨line, hline, hstatement⟩ := List.mem_map.mp hpath
    cases line with
    | element => exact ha path (by cases hstatement; exact hline)
    | _ => cases hstatement
  rw [hkeys, line_statement_map, mentionsFrom_map, foldl_comeUpAt, keysAt_nil]

/-! ## Tables are opened once -/

section Opened

variable {a : List String} {place last : Place α} {events : List (Event α)}

/-- A table with a header is not opened again. -/
theorem opened_notMem_of_run (hkept : .renewed ∉ events)
    (h : (Place.table .header).run events = some last) : .opened ∉ events := by
  induction events with
  | nil => simp
  | cons event events ih =>
    obtain ⟨hevent, hevents⟩ : event ≠ .renewed ∧ .renewed ∉ events := by
      simpa [not_or, eq_comm] using hkept
    obtain ⟨next, hstep, hrest⟩ := Option.bind_eq_some_iff.mp h
    obtain ⟨hopened, rfl⟩ : .opened ≠ event ∧ next = .table .header := by
      cases event with
      | renewed => exact absurd rfl hevent
      | passed dotted | filled dotted =>
        cases dotted <;> cases hstep
        exact ⟨nofun, rfl⟩
      | _ => cases hstep
    exact List.not_mem_cons_of_ne_of_not_mem hopened (ih hevents hrest)

theorem not_duplicate_opened (hkept : .renewed ∉ events) (h : place.run events = some last) :
    ¬ List.Duplicate .opened events := by
  induction events generalizing place with
  | nil => exact nofun
  | cons event events ih =>
    have hevents : .renewed ∉ events := fun hmem => hkept (List.mem_cons_of_mem _ hmem)
    obtain ⟨next, hstep, hrest⟩ := Option.bind_eq_some_iff.mp h
    intro hdup
    cases hdup with
    | cons_mem hmem =>
      obtain rfl : next = .table .header := by
        rcases place with _ | _ | ⟨_ | _ | _⟩ | _ | _ <;> cases hstep <;> rfl
      exact opened_notMem_of_run hevents hrest hmem
    | cons_duplicate hdup => exact ih hevents hrest hdup

theorem Line.opened_mem {line : Line α} (h : line.mention header = ⟨a, true⟩) :
    .opened ∈ line.events header a := by
  cases line with
  | table path =>
    obtain rfl : path = a := (Mention.mk.inj h).1
    have hlast : Event.opened (α := α) ∈ along false (openedAt (lastKey path)) path.dropLast
        (path.dropLast ++ lastKey path) := mem_along_append (by simp [openedAt])
    rwa [dropLast_append_lastKey] at hlast
  | _ => cases (Mention.mk.inj h).2

theorem opened_mem_eventsFrom (h : ⟨a, true⟩ ∈ mentionsFrom header lines) :
    .opened ∈ eventsFrom header lines a := by
  induction lines generalizing header with
  | nil => cases h
  | cons line lines ih =>
    obtain hline | h := List.mem_cons.mp h
    · exact List.mem_append_left _ (line.opened_mem hline.symm)
    · exact List.mem_append_right _ (ih h)

/-- Two headers for one table open it twice. -/
theorem duplicate_opened (h : List.Duplicate ⟨a, true⟩ (mentionsFrom header lines)) :
    List.Duplicate .opened (eventsFrom header lines a) := by
  induction lines generalizing header with
  | nil => cases h
  | cons line lines ih =>
    rw [eventsFrom]
    obtain ⟨hline, hmem⟩ | h := List.duplicate_cons_iff.mp h
    · exact List.duplicate_iff_sublist.mpr (.append
        (List.singleton_sublist.mpr (line.opened_mem hline))
        (List.singleton_sublist.mpr (opened_mem_eventsFrom hmem)))
    · exact (ih h).mono_sublist (List.sublist_append_right _ _)

theorem Mention.behind?_eq_opening {m : Mention} {key : String} :
    m.behind? a = some (.opening key) ↔ m = ⟨a ++ [key], true⟩ := by
  obtain ⟨name, opens⟩ := m
  have hbehind : name.dropPrefix? a = some [key] ↔ name = a ++ [key] := by
    rw [List.dropPrefix?_eq_some_iff]
    constructor
    · rintro ⟨first, rfl, hfirst⟩
      rw [eq_of_beq hfirst]
    · rintro rfl
      exact ⟨a, rfl, beq_self_eq_true a⟩
  simp [behind?, opening, ← hbehind]

/-- Where no list of tables is added to, none is around: the file itself is no list. -/
theorem Consistent.element_notMem_above (h : Consistent lines) {a : List String}
    (ha : a.length ≤ 1) (hadded : .added ∉ eventsFrom [] lines a) (path : List String)
    (hpath : .element path ∈ lines) : ¬ path <+: a := by
  intro hbegins
  obtain rfl | hne := eq_or_ne path []
  · exact h.element_nil_notMem hpath
  · have hlength := hbegins.length_le
    have hpos := List.length_pos_iff.mpr hne
    obtain rfl := hbegins.eq_of_length (by omega)
    exact hadded (added_mem_eventsFrom hpath)

/-- **No table is opened twice** in a file that goes together, unless it is in a list of tables. -/
theorem Consistent.opensOnce (h : Consistent lines)
    (ha : ∀ path, .element path ∈ lines → ¬ path <+: a) :
    OpensOnce (mentionsBehind a (mentionsFrom [] lines)) := by
  intro key hdup
  have htwice : List.Duplicate ⟨a ++ [key], true⟩ (mentionsFrom [] lines) := by
    rw [List.duplicate_iff_two_le_count] at hdup ⊢
    rw [mentionsBehind, List.count_filterMap] at hdup
    simpa only [List.count, Mention.behind?_eq_opening, beq_eq_decide] using hdup
  have hkept : .renewed ∉ eventsFrom [] lines (a ++ [key]) := fun hrenewed => by
    obtain ⟨path, hpath, hbegins, hne⟩ := exists_element_of_renewed hrenewed
    exact ha path hpath ((List.prefix_concat_iff.mp hbegins).resolve_left hne)
  obtain ⟨place, hplace⟩ := Option.ne_none_iff_exists'.mp (h (a ++ [key]))
  exact not_duplicate_opened hkept hplace (duplicate_opened htwice)

end Opened

end Lines

end DeflateEcho.Toml
