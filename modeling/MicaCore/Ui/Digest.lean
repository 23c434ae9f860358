import MicaCore.Ui.Store
import Mathlib.Data.List.Nodup

namespace MicaCore.Ui.Digest

open Data

structure Name where
  bytes : Bytes
  ne_nil : bytes ≠ []
  slash : Ui.slash ∉ bytes
  nul : 0 ∉ bytes
  deriving DecidableEq

abbrev Path := List Name

structure Content where
  bytes : Bytes
  length_lt : bytes.length < 256 ^ 8
  deriving DecidableEq

mutual
/-- A directory has its entries in the order they are listed in. -/
inductive Item where
  | dir (listing : Listing)
  | file (content : Content) (links : ℕ)
  | irregular

inductive Listing where
  | nil
  | cons (name : Name) (item : Item) (rest : Listing)
end

def components (path : Path) : TreePath := path.map Name.bytes

structure Entry where
  path : Path
  isDir : Bool
  deriving DecidableEq

mutual
def Item.collectInto (rel : Path) : Item → Except Rejection (List Entry)
  | .dir listing => do
    let below ← listing.collectInto rel
    pure (⟨rel, true⟩ :: below)
  | .file _ links => do
    ensure (links ≤ 1) (.hardlink (components rel) links)
    pure [⟨rel, false⟩]
  | .irregular => .error (.irregularEntry (components rel))

def Listing.collectInto (rel : Path) : Listing → Except Rejection (List Entry)
  | .nil => pure []
  | .cons name item rest => do
    let first ← item.collectInto (rel ++ [name])
    let others ← rest.collectInto rel
    pure (first ++ others)
end

def Listing.find (name : Name) : Listing → Option Item
  | .nil => none
  | .cons other item rest => if other = name then some item else rest.find name

inductive Kind where
  | dir
  | file (content : Content)
  deriving DecidableEq

def Kind.isDir : Kind → Bool
  | .dir => true
  | .file _ => false

def Item.kindAt : Item → Path → Option Kind
  | .dir _, [] => some .dir
  | .file content _, [] => some (.file content)
  | .dir listing, name :: path => (listing.find name).bind fun item ↦ item.kindAt path
  | _, _ => none

mutual
def Item.Distinct : Item → Prop
  | .dir listing => listing.Distinct
  | _ => True

def Listing.Distinct : Listing → Prop
  | .nil => True
  | .cons name item rest => rest.find name = none ∧ item.Distinct ∧ rest.Distinct
end

/-- A directory whose listings, at every depth, name each entry once. -/
structure Tree where
  listing : Listing
  distinct : listing.Distinct

def Tree.kindAt (tree : Tree) (path : Path) : Option Kind := (Item.dir tree.listing).kindAt path

def Entry.before (a b : Entry) : Bool := components a.path ≤ components b.path

def collect (tree : Tree) : Except Rejection (List Entry) := do
  let entries ← tree.listing.collectInto []
  pure (entries.mergeSort Entry.before)

def indexName : Name := ⟨utf8Bytes Ui.indexName, by decide, by decide, by decide⟩

def validateTree (tree : Tree) : Except Rejection (List Entry) := do
  let entries ← collect tree
  match tree.listing.find indexName with
  | none => .error .missingIndex
  | some (.file _ _) => pure entries
  | some _ => .error .indexNotRegularFile

def Kind.node : Kind → Node
  | .dir => .dir
  | .file content => .file content.bytes 1

def record (path : Path) (kind : Kind) : Bytes := Ui.record (components path) kind.node

def hashEntry (tree : Tree) (entry : Entry) : Except Rejection Bytes :=
  if entry.isDir then .ok (record entry.path .dir)
  else
    match tree.kindAt entry.path with
    | some (.file content) => .ok (record entry.path (.file content))
    | _ => .error .io

def hashed (tree : Tree) (entries : List Entry) : Except Rejection Bytes := do
  let records ← entries.mapM (hashEntry tree)
  pure records.flatten

section Collected

/-- Each path once, and those at which there is a directory or a file. -/
structure Collected (rel : Path) (kindAt : Path → Option Kind) (entries : List Entry) : Prop where
  nodup : (entries.map Entry.path).Nodup
  mem_iff : ∀ e, e ∈ entries ↔ ∃ path kind, e = ⟨rel ++ path, kind.isDir⟩ ∧ kindAt path = some kind

def Listing.kindAt (listing : Listing) : Path → Option Kind
  | [] => none
  | name :: path => (listing.find name).bind fun item ↦ item.kindAt path

theorem Listing.kindAt_cons {name n : Name} {item : Item} {rest : Listing} {path : Path} :
    (Listing.cons name item rest).kindAt (n :: path) =
      if name = n then item.kindAt path else rest.kindAt (n :: path) := by
  simp only [Listing.kindAt, Listing.find]
  split <;> rfl

theorem Listing.exists_of_kindAt {listing : Listing} {path : Path} {kind : Kind}
    (h : listing.kindAt path = some kind) : ∃ n tail, path = n :: tail ∧ listing.find n ≠ none := by
  cases path with
  | nil => cases h
  | cons n tail => exact ⟨n, tail, rfl, fun hfind ↦ by simp [Listing.kindAt, hfind] at h⟩

theorem Collected.cons {rel : Path} {name : Name} {item : Item} {rest : Listing} {first others : List Entry}
    (hfind : rest.find name = none) (hfirst : Collected (rel ++ [name]) item.kindAt first)
    (hothers : Collected rel rest.kindAt others) :
    Collected rel (Listing.cons name item rest).kindAt (first ++ others) := by
  constructor
  · rw [List.map_append]
    refine List.nodup_append.2 ⟨hfirst.nodup, hothers.nodup, ?_⟩
    rintro _ hfst _ hsnd rfl
    obtain ⟨a, ha, hpath⟩ := List.mem_map.1 hfst
    obtain ⟨b, hb, rfl⟩ := List.mem_map.1 hsnd
    obtain ⟨path, kind, rfl, -⟩ := (hfirst.mem_iff a).1 ha
    obtain ⟨_, kind', rfl, hkind⟩ := (hothers.mem_iff b).1 hb
    obtain ⟨n, tail, rfl, hn⟩ := Listing.exists_of_kindAt hkind
    obtain ⟨rfl, -⟩ : name = n ∧ path = tail := by simpa using hpath
    exact hn hfind
  · intro e
    rw [List.mem_append, hfirst.mem_iff, hothers.mem_iff]
    constructor
    · rintro (⟨path, kind, rfl, hkind⟩ | ⟨_, kind, rfl, hkind⟩)
      · exact ⟨name :: path, kind, by simp, by simpa [Listing.kindAt_cons] using hkind⟩
      · obtain ⟨n, tail, rfl, hn⟩ := Listing.exists_of_kindAt hkind
        have hne : name ≠ n := fun heq ↦ hn (heq ▸ hfind)
        exact ⟨n :: tail, kind, rfl, by rwa [Listing.kindAt_cons, if_neg hne]⟩
    · rintro ⟨_, kind, rfl, hkind⟩
      obtain ⟨n, path, rfl, -⟩ := Listing.exists_of_kindAt hkind
      rw [Listing.kindAt_cons] at hkind
      split at hkind
      · next heq => exact .inl ⟨path, kind, by simp [heq], hkind⟩
      · exact .inr ⟨n :: path, kind, rfl, hkind⟩

theorem Collected.nil (rel : Path) : Collected rel Listing.nil.kindAt [] := by
  refine ⟨List.nodup_nil, fun e ↦ ⟨fun he ↦ absurd he List.not_mem_nil, ?_⟩⟩
  rintro ⟨_, kind, rfl, hkind⟩
  obtain ⟨n, _, rfl, hn⟩ := Listing.exists_of_kindAt hkind
  exact absurd rfl hn

theorem Collected.file (rel : Path) (content : Content) (links : ℕ) :
    Collected rel (Item.file content links).kindAt [⟨rel, false⟩] := by
  refine ⟨by simp, fun e ↦ ⟨fun he ↦ ?_, ?_⟩⟩
  · exact ⟨[], .file content, by simpa [Kind.isDir] using he, rfl⟩
  · rintro ⟨_ | ⟨n, path⟩, kind, rfl, hkind⟩
    · obtain rfl : Kind.file content = kind := Option.some.inj hkind
      simp [Kind.isDir]
    · cases hkind

theorem Collected.dir {rel : Path} {listing : Listing} {below : List Entry}
    (h : Collected rel listing.kindAt below) :
    Collected rel (Item.dir listing).kindAt (⟨rel, true⟩ :: below) := by
  constructor
  · refine List.nodup_cons.2 ⟨fun hmem ↦ ?_, h.nodup⟩
    obtain ⟨e, he, hpath⟩ := List.mem_map.1 hmem
    obtain ⟨_ | ⟨n, path⟩, kind, rfl, hkind⟩ := (h.mem_iff e).1 he
    · cases hkind
    · simp at hpath
  · intro e
    rw [List.mem_cons, h.mem_iff]
    constructor
    · rintro (rfl | ⟨_ | ⟨n, path⟩, kind, rfl, hkind⟩)
      · exact ⟨[], .dir, by simp [Kind.isDir], rfl⟩
      · cases hkind
      · exact ⟨n :: path, kind, rfl, hkind⟩
    · rintro ⟨_ | ⟨n, path⟩, kind, rfl, hkind⟩
      · obtain rfl : Kind.dir = kind := Option.some.inj hkind
        exact .inl (by simp [Kind.isDir])
      · exact .inr ⟨n :: path, kind, rfl, hkind⟩

mutual
theorem Item.collected {rel : Path} : ∀ {item : Item} {entries : List Entry}, item.Distinct →
    item.collectInto rel = .ok entries → Collected rel item.kindAt entries
  | .dir listing, entries, hdistinct, h => by
    simp only [Item.collectInto, bind_eq_ok, pure_eq_ok] at h
    obtain ⟨below, hbelow, rfl⟩ := h
    exact .dir (Listing.collected hdistinct hbelow)
  | .file content links, entries, _, h => by
    simp only [Item.collectInto, bind_eq_ok, pure_eq_ok] at h
    obtain ⟨_, -, rfl⟩ := h
    exact .file rel content links
  | .irregular, entries, _, h => by cases h

theorem Listing.collected {rel : Path} :
    ∀ {listing : Listing} {entries : List Entry}, listing.Distinct →
    listing.collectInto rel = .ok entries → Collected rel listing.kindAt entries
  | .nil, entries, _, h => by
    obtain rfl : [] = entries := by simpa [Listing.collectInto] using h
    exact .nil rel
  | .cons name item rest, entries, hdistinct, h => by
    obtain ⟨hfind, hitem, hrest⟩ := hdistinct
    simp only [Listing.collectInto, bind_eq_ok, pure_eq_ok] at h
    obtain ⟨first, hfirst, others, hothers, rfl⟩ := h
    exact .cons hfind (Item.collected hitem hfirst) (Listing.collected hrest hothers)
end

theorem Tree.kindAt_eq {tree : Tree} {path : Path} (h : path ≠ []) :
    tree.kindAt path = tree.listing.kindAt path := by
  cases path with
  | nil => exact absurd rfl h
  | cons name path => rfl

theorem collected_of_validateTree {tree : Tree} {entries : List Entry}
    (h : validateTree tree = .ok entries) :
    Collected [] tree.listing.kindAt entries ∧ entries.Pairwise fun a b ↦ a.before b = true := by
  simp only [validateTree, collect, bind_eq_ok, pure_eq_ok] at h
  obtain ⟨_, ⟨found, hfound, rfl⟩, h⟩ := h
  obtain rfl : found.mergeSort Entry.before = entries := by
    split at h
    · cases h
    · exact Except.ok.inj h
    · cases h
  have hperm := List.mergeSort_perm found Entry.before
  have hcollected := Listing.collected tree.distinct hfound
  refine ⟨⟨(hperm.map _).nodup_iff.2 hcollected.nodup, fun e ↦ hperm.mem_iff.trans (hcollected.mem_iff e)⟩, ?_⟩
  refine List.pairwise_mergeSort (fun a b c hab hbc ↦ ?_) (fun a b ↦ ?_) found
  · simp only [Entry.before, decide_eq_true_eq] at hab hbc ⊢
    exact Std.le_trans hab hbc
  · simp only [Entry.before, Bool.or_eq_true, decide_eq_true_eq]
    exact Std.le_total

end Collected

section Records

theorem components_injective : Function.Injective components :=
  List.map_injective_iff.2 fun a b h ↦ by
    cases a
    cases b
    cases h
    rfl

theorem append_cons_inj {α : Type} {x : α} {a b r r' : List α} (ha : x ∉ a) (hb : x ∉ b)
    (h : a ++ x :: r = b ++ x :: r') : a = b ∧ r = r' := by
  induction a generalizing b with
  | nil =>
    cases b with
    | nil => exact ⟨rfl, (List.cons.inj h).2⟩
    | cons y b => exact absurd (List.mem_cons.2 (.inl (List.cons.inj h).1)) hb
  | cons y a ih =>
    cases b with
    | nil => exact absurd (List.mem_cons.2 (.inl (List.cons.inj h).1.symm)) ha
    | cons z b =>
      obtain ⟨rfl, htail⟩ := List.cons.inj h
      obtain ⟨rfl, hrest⟩ := ih (fun hx ↦ ha (List.mem_cons_of_mem _ hx))
        (fun hx ↦ hb (List.mem_cons_of_mem _ hx)) htail
      exact ⟨rfl, hrest⟩

theorem nul_notMem_encoded (path : Path) : 0 ∉ encoded (components path) := by
  intro hmem
  obtain ⟨w, hw, hnul⟩ | hslash := mem_of_mem_intercalate hmem
  · obtain ⟨name, -, rfl⟩ := List.mem_map.1 hw
    exact name.nul hnul
  · cases hslash

variable {p q : Path} {k k' : Kind} {r r' : Bytes}

theorem encoded_append_inj (hp : p ≠ []) (hq : q ≠ [])
    (h : encoded (components p) ++ 0 :: r = encoded (components q) ++ 0 :: r') :
    p = q ∧ r = r' := by
  obtain ⟨hpath, hrest⟩ := append_cons_inj (nul_notMem_encoded p) (nul_notMem_encoded q) h
  have hsplit : ∀ {path : Path}, path ≠ [] →
      (encoded (components path)).splitOn slash = components path := fun hne ↦
    List.splitOn_intercalate slash (by simpa [components] using fun n _ ↦ n.slash)
      (by simpa [components] using hne)
  refine ⟨components_injective ?_, hrest⟩
  rw [← hsplit hp, ← hsplit hq, hpath]

theorem toLeBytes_append_inj {c c' : Content}
    (h : toLeBytes c.bytes.length ++ c.bytes ++ r = toLeBytes c'.bytes.length ++ c'.bytes ++ r') :
    c = c' ∧ r = r' := by
  rw [List.append_assoc, List.append_assoc] at h
  obtain ⟨hlength, hrest⟩ := List.append_inj h (by simp [toLeBytes])
  have hlen : c.bytes.length = c'.bytes.length := by
    have hbig := congrArg bigEndian (List.reverse_injective hlength)
    rwa [bigEndian_toBigEndian 8 _ c.length_lt, bigEndian_toBigEndian 8 _ c'.length_lt] at hbig
  obtain ⟨hbytes, hr⟩ := List.append_inj hrest hlen
  refine ⟨?_, hr⟩
  cases c
  cases c'
  cases hbytes
  rfl

theorem record_append_inj (hp : p ≠ []) (hq : q ≠ []) (h : record p k ++ r = record q k' ++ r') :
    p = q ∧ k = k' ∧ r = r' := by
  cases k with
  | dir =>
    cases k' with
    | dir =>
      simp only [record, Ui.record, Kind.node, List.cons_append, List.append_assoc, List.cons.injEq, true_and, List.nil_append] at h
      obtain ⟨rfl, hrest⟩ := encoded_append_inj hp hq h
      exact ⟨rfl, rfl, hrest⟩
    | file c' => cases (List.cons.inj h).1
  | file c =>
    cases k' with
    | dir => cases (List.cons.inj h).1
    | file c' =>
      simp only [record, Ui.record, Kind.node, List.cons_append, List.append_assoc, List.cons.injEq, true_and] at h
      obtain ⟨rfl, hrest⟩ := encoded_append_inj hp hq h
      rw [← List.append_assoc, ← List.append_assoc] at hrest
      obtain ⟨rfl, hr⟩ := toLeBytes_append_inj hrest
      exact ⟨rfl, rfl, hr⟩

def records (pairs : List (Path × Kind)) : Bytes := pairs.flatMap fun x ↦ record x.1 x.2

theorem record_ne_nil (p : Path) (k : Kind) : record p k ≠ [] := by
  cases k <;> simp [record, Ui.record, Kind.node]

theorem records_injective {xs ys : List (Path × Kind)} (hxs : ∀ x ∈ xs, x.1 ≠ [])
    (hys : ∀ y ∈ ys, y.1 ≠ [])
    (h : records xs = records ys) : xs = ys := by
  induction xs generalizing ys with
  | nil =>
    cases ys with
    | nil => rfl
    | cons y ys => simp [records, record_ne_nil] at h
  | cons x xs ih =>
    cases ys with
    | nil => simp [records, record_ne_nil] at h
    | cons y ys =>
      obtain ⟨hx, hxs⟩ := List.forall_mem_cons.1 hxs
      obtain ⟨hy, hys⟩ := List.forall_mem_cons.1 hys
      simp only [records, List.flatMap_cons] at h
      obtain ⟨hpath, hkind, hrest⟩ := record_append_inj hx hy h
      rw [ih hxs hys hrest, Prod.ext hpath hkind]

end Records

variable {t u : Tree} {es es' : List Entry}

theorem Collected.ne_nil (h : Collected [] t.listing.kindAt es) {e : Entry} (he : e ∈ es) :
    e.path ≠ [] ∧ ∃ kind, e.isDir = kind.isDir ∧ t.kindAt e.path = some kind := by
  obtain ⟨_ | ⟨name, path⟩, kind, rfl, hkind⟩ := (h.mem_iff e).1 he
  · cases hkind
  · exact ⟨by simp, kind, rfl, hkind⟩

theorem exists_hashed (h : ∀ e ∈ es, e.path ≠ [] ∧ ∃ kind, e.isDir = kind.isDir ∧ t.kindAt e.path = some kind) :
    ∃ pairs : List (Path × Kind), es = pairs.map (fun x ↦ ⟨x.1, x.2.isDir⟩) ∧
      (∀ x ∈ pairs, x.1 ≠ [] ∧ t.kindAt x.1 = some x.2) ∧ hashed t es = .ok (records pairs) := by
  induction es with
  | nil => exact ⟨[], rfl, by simp, rfl⟩
  | cons e es ih =>
    obtain ⟨⟨hne, kind, hdir, hkind⟩, hrest⟩ := List.forall_mem_cons.1 h
    obtain ⟨pairs, hpairs, hall, hhashed⟩ := ih hrest
    have hentry : hashEntry t e = .ok (record e.path kind) := by
      cases kind with
      | dir => simp [hashEntry, hdir, Kind.isDir]
      | file content => simp [hashEntry, hdir, hkind, Kind.isDir]
    refine ⟨(e.path, kind) :: pairs, ?_, List.forall_mem_cons.2 ⟨⟨hne, hkind⟩, hall⟩, ?_⟩
    · rw [List.map_cons, ← hpairs, ← hdir]
    · simp only [hashed, List.mapM_cons, bind_eq_ok, pure_eq_ok] at hhashed ⊢
      obtain ⟨rest, hmap, hflat⟩ := hhashed
      exact ⟨_, ⟨_, hentry, rest, hmap, rfl⟩, by rw [List.flatten_cons, hflat]; rfl⟩

theorem mem_of_kindAt (h : Collected [] t.listing.kindAt es)
    {path : Path} {kind : Kind} (hne : path ≠ [])
    (hkind : t.kindAt path = some kind) : ⟨path, kind.isDir⟩ ∈ es :=
  (h.mem_iff _).2 ⟨path, kind, rfl, (Tree.kindAt_eq hne).symm.trans hkind⟩

theorem kindAt_eq_some_iff (h : Collected [] t.listing.kindAt es) {pairs : List (Path × Kind)}
    (hpairs : es = pairs.map fun x ↦ ⟨x.1, x.2.isDir⟩)
    (hall : ∀ x ∈ pairs, x.1 ≠ [] ∧ t.kindAt x.1 = some x.2)
    {path : Path} {kind : Kind} (hne : path ≠ []) :
    t.kindAt path = some kind ↔ (path, kind) ∈ pairs := by
  refine ⟨fun hkind ↦ ?_, fun hmem ↦ (hall _ hmem).2⟩
  have hentry := mem_of_kindAt h hne hkind
  rw [hpairs] at hentry
  obtain ⟨⟨p, k⟩, hx, heq⟩ := List.mem_map.1 hentry
  obtain rfl : p = path := congrArg Entry.path heq
  obtain rfl : k = kind := Option.some.inj ((hall _ hx).2.symm.trans hkind)
  exact hx

theorem Collected.subset (h : Collected [] t.listing.kindAt es)
    (h' : Collected [] u.listing.kindAt es')
    (hsame : ∀ path, t.kindAt path = u.kindAt path) {e : Entry} (he : e ∈ es) : e ∈ es' := by
  obtain ⟨hne, kind, hdir, hkind⟩ := h.ne_nil he
  simpa [← hdir] using mem_of_kindAt h' hne ((hsame _).symm.trans hkind)

theorem entries_eq (ht : validateTree t = .ok es) (hu : validateTree u = .ok es')
    (h : ∀ path, t.kindAt path = u.kindAt path) : es = es' := by
  obtain ⟨hcollected, hsorted⟩ := collected_of_validateTree ht
  obtain ⟨hcollected', hsorted'⟩ := collected_of_validateTree hu
  have hmem : ∀ e, e ∈ es ↔ e ∈ es' := fun e ↦
    ⟨hcollected.subset hcollected' h, hcollected'.subset hcollected fun path ↦ (h path).symm⟩
  refine List.Perm.eq_of_pairwise (fun a b ha hb hab hba ↦ ?_) hsorted hsorted'
    ((List.perm_ext_iff_of_nodup (hcollected.nodup.of_map _) (hcollected'.nodup.of_map _)).2 hmem)
  -- Two entries of one path are one entry.
  simp only [Entry.before, decide_eq_true_eq] at hab hba
  have hpath : a.path = b.path := components_injective (Std.le_antisymm hab hba)
  exact List.inj_on_of_nodup_map hcollected.nodup ha ((hmem b).2 hb) hpath

/-- The hashed bytes are the same exactly when directories and files are. -/
theorem hashed_eq_iff (ht : validateTree t = .ok es) (hu : validateTree u = .ok es') :
    ∃ bytes bytes', hashed t es = .ok bytes ∧ hashed u es' = .ok bytes' ∧
      (bytes = bytes' ↔ ∀ path, t.kindAt path = u.kindAt path) := by
  have hcollected := (collected_of_validateTree ht).1
  have hcollected' := (collected_of_validateTree hu).1
  obtain ⟨pairs, hpairs, hall, hhashed⟩ := exists_hashed fun e he ↦ hcollected.ne_nil he
  obtain ⟨pairs', hpairs', hall', hhashed'⟩ := exists_hashed fun e he ↦ hcollected'.ne_nil he
  refine ⟨_, _, hhashed, hhashed', fun heq path ↦ ?_, fun hsame ↦ ?_⟩
  · have hsame := records_injective (fun x hx ↦ (hall x hx).1) (fun x hx ↦ (hall' x hx).1) heq
    by_cases hne : path = []
    · subst hne
      rfl
    · refine Option.ext fun kind ↦ ?_
      rw [kindAt_eq_some_iff hcollected hpairs hall hne, kindAt_eq_some_iff hcollected' hpairs' hall' hne, hsame]
  · have hentries := entries_eq ht hu hsame
    have hhash : hashEntry t = hashEntry u := funext fun e ↦ by simp only [hashEntry, hsame]
    rw [hentries, hashed, hhash, ← hashed] at hhashed
    exact Except.ok.inj (hhashed.symm.trans hhashed')

section Flat

def Item.nodeAt : Item → Path → Option Node
  | .dir _, [] => some .dir
  | .file content links, [] => some (.file content.bytes links)
  | .irregular, [] => some .irregular
  | .dir listing, name :: path => (listing.find name).bind fun item ↦ item.nodeAt path
  | _, _ => none

def Listing.nodeAt (listing : Listing) (name : Name) (path : Path) : Option Node :=
  (listing.find name).bind fun item ↦ item.nodeAt path

/-- The store's view of a directory: its nodes by their paths. -/
structure Shows (tree : Tree) (flat : Ui.Tree) : Prop where
  nodes : ∀ name path, flat.get (components (name :: path)) = tree.listing.nodeAt name path
  named : ∀ k ∈ flat.keys, ∃ name path, k = components (name :: path)

theorem Listing.nodeAt_cons {name n : Name} {item : Item} {rest : Listing} {path : Path} :
    (Listing.cons name item rest).nodeAt n path =
      if name = n then item.nodeAt path else rest.nodeAt n path := by
  simp only [Listing.nodeAt, Listing.find]
  split <;> rfl

mutual
theorem Item.exists_collectInto (rel : Path) : ∀ {item : Item}, item.Distinct →
    ((∃ es, item.collectInto rel = .ok es) ↔
      ∀ path node, item.nodeAt path = some node → node.single = true)
  | .dir listing, h => by
    have hbelow := Listing.exists_collectInto rel h
    constructor
    · rintro ⟨_, hes⟩ path node hnode
      obtain ⟨below, hok, -⟩ := bind_eq_ok.1 hes
      cases path with
      | nil => cases hnode; rfl
      | cons name path => exact hbelow.1 ⟨below, hok⟩ name path node hnode
    · intro hsingle
      obtain ⟨below, hok⟩ := hbelow.2 fun name path ↦ hsingle (name :: path)
      exact ⟨_, bind_eq_ok.2 ⟨below, hok, rfl⟩⟩
  | .file content links, _ => by
    constructor
    · rintro ⟨_, hes⟩ path node hnode
      obtain ⟨_, hlinks, -⟩ := bind_eq_ok.1 hes
      cases path with
      | nil => cases hnode; exact ensure_eq_ok.1 hlinks
      | cons name path => cases hnode
    · intro hsingle
      exact ⟨_, bind_eq_ok.2 ⟨(), ensure_eq_ok.2 (hsingle [] _ rfl), rfl⟩⟩
  | .irregular, _ => by
    constructor
    · rintro ⟨_, hes⟩
      cases hes
    · intro hsingle
      cases hsingle [] _ rfl

theorem Listing.exists_collectInto (rel : Path) : ∀ {listing : Listing}, listing.Distinct →
    ((∃ es, listing.collectInto rel = .ok es) ↔
      ∀ name path node, listing.nodeAt name path = some node → node.single = true)
  | .nil, _ => ⟨fun _ _ _ _ hnode ↦ (by cases hnode), fun _ ↦ ⟨[], rfl⟩⟩
  | .cons name item rest, h => by
    obtain ⟨hfind, hitem, hrest⟩ := h
    have hfirst := Item.exists_collectInto (rel ++ [name]) hitem
    have hothers := Listing.exists_collectInto rel hrest
    simp only [Listing.nodeAt_cons]
    constructor
    · rintro ⟨_, hes⟩ n path node hnode
      obtain ⟨first, hok, hes⟩ := bind_eq_ok.1 hes
      obtain ⟨others, hok', -⟩ := bind_eq_ok.1 hes
      split at hnode
      · exact hfirst.1 ⟨first, hok⟩ path node hnode
      · exact hothers.1 ⟨others, hok'⟩ n path node hnode
    · intro hsingle
      obtain ⟨first, hok⟩ := hfirst.2 fun path node hnode ↦
        hsingle name path node (by rwa [if_pos rfl])
      obtain ⟨others, hok'⟩ := hothers.2 fun n path node hnode ↦ by
        refine hsingle n path node ?_
        rwa [if_neg]
        rintro rfl
        rw [Listing.nodeAt, hfind] at hnode
        cases hnode
      exact ⟨_, bind_eq_ok.2 ⟨first, hok, bind_eq_ok.2 ⟨others, hok', rfl⟩⟩⟩
end

variable {flat : Ui.Tree}

theorem Shows.exists_node (h : Shows t flat) {k : TreePath} {node : Node} :
    flat.get k = some node ↔
      ∃ name path, k = components (name :: path) ∧ t.listing.nodeAt name path = some node := by
  constructor
  · intro hget
    obtain ⟨name, path, rfl⟩ := h.named k (OrdMap.mem_keys.2 ⟨node, hget⟩)
    exact ⟨name, path, rfl, (h.nodes name path).symm.trans hget⟩
  · rintro ⟨name, path, rfl, hnode⟩
    exact (h.nodes name path).trans hnode

/-- The store's check of a tree accepts it exactly when the walk of the directory does. -/
theorem Shows.validateTree_iff (h : Shows t flat) :
    Ui.validateTree flat = .ok () ↔ ∃ es, validateTree t = .ok es := by
  have hwalk : (∃ es, t.listing.collectInto [] = .ok es) ↔
      ∀ e ∈ flat.entries, e.2.single = true := by
    rw [Listing.exists_collectInto [] t.distinct]
    refine ⟨fun hall e he ↦ ?_, fun hall name path node hnode ↦ ?_⟩
    · obtain ⟨name, path, -, hnode⟩ := h.exists_node.1 (OrdMap.get_eq_some_iff.2 he)
      exact hall name path e.2 hnode
    · exact hall _ (OrdMap.get_eq_some_iff.1 (h.exists_node.2 ⟨name, path, rfl, hnode⟩))
  have hindex : flat.get (rootPath Ui.indexName) = t.listing.nodeAt indexName [] :=
    h.nodes indexName []
  simp only [Ui.validateTree, validateTree, collect, bind_eq_ok, pure_eq_ok, forM_eq_ok, checkEntry_eq_ok,
    exists_const, ← hwalk, hindex, Listing.nodeAt]
  cases t.listing.find indexName with
  | none => simp
  | some item => cases item <;> simp [Item.nodeAt]

/-- A node has a kind, which hashes as it does, unless it is irregular. -/
theorem Item.nodeAt_cases : ∀ (item : Item) (path : Path),
    (item.kindAt path = none ∧ ∀ node, item.nodeAt path = some node → node.single = false) ∨
      ∃ kind node, item.kindAt path = some kind ∧ item.nodeAt path = some node ∧
        ∀ p, Ui.record p node = Ui.record p kind.node
  | .dir _, [] | .file _ _, [] => .inr ⟨_, _, rfl, rfl, fun _ ↦ rfl⟩
  | .irregular, [] => .inl ⟨rfl, fun _ h ↦ by cases h; rfl⟩
  | .file _ _, _ :: _ | .irregular, _ :: _ => .inl ⟨rfl, fun _ h ↦ by cases h⟩
  | .dir listing, name :: path => by
    simp only [Item.kindAt, Item.nodeAt]
    cases listing.find name with
    | none => simp
    | some found => simpa using nodeAt_cases found path

/-- The store's digest is taken over the bytes that the walk of the directory hashes. -/
theorem Shows.hashed (h : Shows t flat) (ht : validateTree t = .ok es) :
    hashed t es = .ok (hashedBytes flat) := by
  obtain ⟨hcollected, hsorted⟩ := collected_of_validateTree ht
  obtain ⟨pairs, rfl, hall, hhashed⟩ := exists_hashed fun e he ↦ hcollected.ne_nil he
  have hsingle : ∀ name path node, t.listing.nodeAt name path = some node → node.single = true := by
    obtain ⟨_, hcollect, -⟩ := bind_eq_ok.1 ht
    obtain ⟨found, hfound, -⟩ := bind_eq_ok.1 hcollect
    exact (Listing.exists_collectInto [] t.distinct).1 ⟨found, hfound⟩
  have hmem : ∀ x, x ∈ pairs.map (fun x ↦ (components x.1, record x.1 x.2)) ↔
      x ∈ flat.entries.map fun e ↦ (e.1, Ui.record e.1 e.2) := fun x ↦ by
    rw [List.mem_map, List.mem_map]
    constructor
    · rintro ⟨⟨_ | ⟨name, path⟩, kind⟩, hx, rfl⟩
      · exact absurd rfl (hall _ hx).1
      · obtain ⟨hnone, -⟩ | ⟨kind', node, hkind', hnode, hrecord⟩ :=
          Item.nodeAt_cases (.dir t.listing) (name :: path)
        · cases hnone.symm.trans (hall _ hx).2
        obtain rfl : kind = kind' := Option.some.inj ((hall _ hx).2.symm.trans hkind')
        have hget := h.exists_node.2 ⟨name, path, rfl, hnode⟩
        exact ⟨(_, node), OrdMap.get_eq_some_iff.1 hget, by rw [hrecord]; rfl⟩
    · rintro ⟨⟨k, node⟩, he, rfl⟩
      obtain ⟨name, path, rfl, hnode⟩ := h.exists_node.1 (OrdMap.get_eq_some_iff.2 he)
      obtain ⟨-, hnot⟩ | ⟨kind, node', hkind, hnode', hrecord⟩ :=
        Item.nodeAt_cases (.dir t.listing) (name :: path)
      · cases (hsingle name path node hnode).symm.trans (hnot node hnode)
      obtain rfl : node = node' := Option.some.inj (hnode.symm.trans hnode')
      exact ⟨(name :: path, kind), (kindAt_eq_some_iff hcollected rfl hall (by simp)).1 hkind,
        by rw [hrecord]; rfl⟩
  have hrecords : pairs.map (fun x ↦ (components x.1, record x.1 x.2)) =
      flat.entries.map fun e ↦ (e.1, Ui.record e.1 e.2) := by
    have hasymm : Std.Asymm fun a b : TreePath × Bytes ↦ a.1 < b.1 := ⟨fun _ _ ↦ lt_asymm⟩
    have hnodup := hcollected.nodup
    rw [List.map_map] at hnodup
    have hless : pairs.Pairwise fun a b ↦ components a.1 < components b.1 :=
      ((List.pairwise_map.1 hsorted).and (List.pairwise_map.1 hnodup)).imp fun hab ↦
        lt_of_le_of_ne (of_decide_eq_true hab.1) (components_injective.ne hab.2)
    refine List.Pairwise.eq_of_mem_iff (r := fun a b ↦ a.1 < b.1) ?_ ?_ hmem
    · exact List.pairwise_map.2 hless
    · exact List.pairwise_map.2 flat.sorted
  have hflat := congrArg (List.flatMap Prod.snd) hrecords
  rw [List.flatMap_map, List.flatMap_map] at hflat
  rw [hhashed, records, hflat, hashedBytes]

end Flat

def assets : Name := ⟨utf8Bytes "assets".toList, by decide, by decide, by decide⟩

/-- A page, and a directory of two scripts listed in either order. -/
def console (swapped : Bool) : Tree :=
  let script (b : UInt8) (links : ℕ) : Item := .file ⟨[b], by simp⟩ links
  let one : Name := ⟨[97], by decide, by decide, by decide⟩
  let two : Name := ⟨[98], by decide, by decide, by decide⟩
  if swapped then
    ⟨.cons assets (.dir (.cons two (script 2 0) (.cons one (script 1 1) .nil)))
      (.cons indexName (script 3 1) .nil), by simp [Listing.Distinct, Item.Distinct, Listing.find]; decide⟩
  else
    ⟨.cons indexName (script 3 1)
      (.cons assets (.dir (.cons one (script 1 1) (.cons two (script 2 1) .nil))) .nil),
      by simp [Listing.Distinct, Item.Distinct, Listing.find]; decide⟩

theorem exists_validateTree_console (swapped : Bool) :
    ∃ es, validateTree (console swapped) = .ok es := by
  cases swapped <;> exact ⟨_, rfl⟩

theorem hashed_eq_iff_console : ∃ es es' bytes bytes', validateTree (console false) = .ok es ∧
    validateTree (console true) = .ok es' ∧ hashed (console false) es = .ok bytes ∧
      hashed (console true) es' = .ok bytes' ∧ (bytes = bytes' ↔
        ∀ path, (console false).kindAt path = (console true).kindAt path) := by
  obtain ⟨es, hes⟩ := exists_validateTree_console false
  obtain ⟨es', hes'⟩ := exists_validateTree_console true
  obtain ⟨bytes, bytes', h⟩ := hashed_eq_iff hes hes'
  exact ⟨es, es', bytes, bytes', hes, hes', h⟩

end MicaCore.Ui.Digest
