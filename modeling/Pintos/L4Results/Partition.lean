import Pintos.L2Code.Partition

/-!
# The partition scan

What the scan should find: the partitions of the table in sector 0 and of the
extended tables that it leads to, each read from its own sector.

* `Nested`, `Acyclic`: which table an entry leads to, and that no table leads
  to itself.
* `Listed d l`: `l` are the partitions of the tables in the order of the
  traversal. `Listed.acyclic`: there is one only when the tables are acyclic.
* `partition_scan_iff`: `read_partition_table` always reads sector 0. The scan
  is right whatever the other sectors hold exactly when the table of sector 0
  has no extended entry that leads to a sector on the device.
-/
namespace Pintos.Partition

open Pintos.Core Relation List

/-! ## Specification -/

/-- A partition: its type, first sector and size. -/
structure Part where
  type : UInt8
  start : Nat
  size : Nat
  deriving DecidableEq

/-- A table by its sector and the sector of the extended partition it is in. -/
abbrev Place := Nat × Nat

/-- Where the extended entry `e` of the table at `x` leads: the offset is a
sector number in sector 0, and relative to the extended partition elsewhere. -/
def Place.next (x : Place) (e : Entry) : Place :=
  if x.1 = 0 then (e.offset, e.offset) else (x.2 + e.offset, x.2)

/-- The partitions of the entry `e` of the table at `x`, when `below` gives
those of the tables below. -/
def listEntry (below : Place → Option (List Part)) (x : Place) (e : Entry) : Option (List Part) :=
  if e.empty then some []
  else if e.extended then below (x.next e)
  else some [⟨e.type, x.1 + e.offset, e.size⟩]

def listEntries (below : Place → Option (List Part)) (x : Place) : List Entry → Option (List Part)
  | [] => some []
  | e :: es => do
    let l ← listEntry below x e
    let l' ← listEntries below x es
    some (l ++ l')

/-- The partitions of the table at `x` and of those below it: `none` when they
are nested deeper than `n`. -/
def listTables (d : Block) : Nat → Place → Option (List Part)
  | 0, x => if d.size ≤ x.1 then some [] else none
  | n + 1, x =>
    if d.size ≤ x.1 ∨ (d.read x.1).signature ≠ 0xaa55 then some []
    else listEntries (listTables d n) x (d.read x.1).partitions

/-- The partitions on the disk, in the order of the traversal. -/
def Listed (d : Block) (l : List Part) : Prop := ∃ n, listTables d n (0, 0) = some l

/-- The table at `x` leads to the one at `y`. -/
def Nested (d : Block) (x y : Place) : Prop :=
  x.1 < d.size ∧ (d.read x.1).signature = 0xaa55 ∧
    ∃ e ∈ (d.read x.1).partitions, e.empty = false ∧ e.extended = true ∧ y = x.next e

/-- No table that sector 0 leads to leads to itself. -/
def Acyclic (d : Block) : Prop := ∀ x, ReflTransGen (Nested d) (0, 0) x → ¬TransGen (Nested d) x x

/-- The calls for the partitions `l` when `n` partitions have been found. -/
def numberFrom (n : Nat) (l : List Part) : List Found :=
  (l.zipIdx (n + 1)).map fun x => ⟨x.1.type, x.1.start, x.1.size, x.2⟩

/-- The scan ends, with any amount of memory that is large enough, and when
the tables are acyclic it finds their partitions and numbers them from 1. -/
def ScanCorrect (d : Block) : Prop :=
  (∃ n, ∀ mem ≥ n, (partitionScan d mem).isSome) ∧
    (Acyclic d → ∃ l, Listed d l ∧ ∃ n, ∀ mem ≥ n, ∃ log, partitionScan d mem = some log ∧
      log.found = numberFrom 0 l)

/-! ## Tables that do not lead to themselves -/

section Tables
variable {d : Block} {n : Nat} {x y : Place}

theorem offset_lt {s : Nat} {e : Entry} (he : e ∈ (d.read s).partitions) : e.offset < 2 ^ 32 := by
  simp only [Block.read, mem_map, mem_range] at he
  obtain ⟨i, -, rfl⟩ := he
  exact wordAt_lt _ _

theorem listEntry_isSome {below : Place → Option (List Part)} {e : Entry} :
    (listEntry below x e).isSome ↔ (e.empty = false → e.extended = true → (below (x.next e)).isSome) := by
  rw [listEntry]
  cases e.empty <;> cases e.extended <;> simp

theorem listEntries_isSome {below : Place → Option (List Part)} {es : List Entry} :
    (listEntries below x es).isSome ↔
      ∀ e ∈ es, e.empty = false → e.extended = true → (below (x.next e)).isSome := by
  induction es with
  | nil => simp [listEntries]
  | cons e es ih =>
    rw [forall_mem_cons, ← ih, ← listEntry_isSome, listEntries]
    cases listEntry below x e <;> cases listEntries below x es <;> simp

/-- The depth that a table needs is one more than that of the tables it leads to. -/
theorem listTables_succ_isSome :
    (listTables d (n + 1) x).isSome ↔ ∀ y, Nested d x y → (listTables d n y).isSome := by
  by_cases hx : d.size ≤ x.1 ∨ (d.read x.1).signature ≠ 0xaa55
  · have hnone : ∀ y, ¬Nested d x y := by
      rintro y ⟨h1, h2, -⟩
      rcases hx with hx | hx
      · omega
      · exact hx h2
    simp [listTables, hx, hnone]
  · have hx' := hx
    simp only [not_or, Nat.not_le, not_not] at hx'
    simp only [listTables, if_neg hx, listEntries_isSome]
    constructor
    · rintro h y ⟨-, -, e, he, h1, h2, rfl⟩
      exact h e he h1 h2
    · intro h e he h1 h2
      exact h _ ⟨hx'.1, hx'.2, e, he, h1, h2, rfl⟩

theorem listTables_zero_isSome : (listTables d 0 x).isSome ↔ d.size ≤ x.1 := by
  simp only [listTables]
  split <;> simp_all

theorem listEntry_mono {below below' : Place → Option (List Part)} {e : Entry} {l : List Part}
    (hb : ∀ y l, below y = some l → below' y = some l) (h : listEntry below x e = some l) :
    listEntry below' x e = some l := by
  rw [listEntry] at h ⊢
  cases h1 : e.empty <;> cases h2 : e.extended <;> simp_all

theorem listEntries_mono {below below' : Place → Option (List Part)} {es : List Entry} {l : List Part}
    (hb : ∀ y l, below y = some l → below' y = some l) (h : listEntries below x es = some l) :
    listEntries below' x es = some l := by
  induction es generalizing l with
  | nil => exact h
  | cons e es ih =>
    simp only [listEntries, Option.bind_eq_bind, Option.bind_eq_some_iff] at h ⊢
    obtain ⟨l1, h1, l2, h2, hl⟩ := h
    exact ⟨l1, listEntry_mono hb h1, l2, ih h2, hl⟩

theorem listTables_mono {l : List Part} (h : listTables d n x = some l) : listTables d (n + 1) x = some l := by
  induction n generalizing x l with
  | zero =>
    simp only [listTables, Option.ite_none_right_eq_some] at h
    exact (if_pos (.inl h.1)).trans h.2
  | succ n ih =>
    rw [listTables] at h ⊢
    by_cases hx : d.size ≤ x.1 ∨ (d.read x.1).signature ≠ 0xaa55
    · rwa [if_pos hx] at h ⊢
    · rw [if_neg hx] at h ⊢
      exact listEntries_mono (fun y l => ih) h

theorem listTables_of_le {m : Nat} {l : List Part} (h : listTables d n x = some l) (hm : n ≤ m) :
    listTables d m x = some l := by
  induction m, hm using Nat.le_induction with
  | base => exact h
  | succ m _ ih => exact listTables_mono ih

/-- The listing does not depend on the depth. -/
theorem Listed.eq {l l' : List Part} (h : Listed d l) (h' : Listed d l') : l = l' := by
  obtain ⟨n, hn⟩ := h
  obtain ⟨m, hm⟩ := h'
  exact Option.mem_unique (listTables_of_le hn (le_max_left n m)) (listTables_of_le hm (le_max_right n m))

/-- The tables below a table need less depth. -/
theorem listTables_below (h : (listTables d n x).isSome) (hxy : TransGen (Nested d) x y) :
    ∃ m < n, (listTables d m y).isSome := by
  have one : ∀ {n x y}, (listTables d n x).isSome → Nested d x y → ∃ m < n, (listTables d m y).isSome := by
    intro n x y h hxy
    cases n with
    | zero =>
      have := listTables_zero_isSome.1 h
      exact absurd hxy.1 (by omega)
    | succ n => exact ⟨n, Nat.lt_succ_self n, listTables_succ_isSome.1 h y hxy⟩
  induction hxy with
  | single hxy => exact one h hxy
  | tail _ hyz ih =>
    obtain ⟨m, hm, hy⟩ := ih
    obtain ⟨m', hm', hz⟩ := one hy hyz
    exact ⟨m', by omega, hz⟩

theorem not_transGen_self (h : (listTables d n x).isSome) : ¬TransGen (Nested d) x x := by
  intro hx
  induction n using Nat.strong_induction_on with
  | _ n ih =>
    obtain ⟨m, hm, h'⟩ := listTables_below h hx
    exact ih m hm h'

/-- The partitions can only be listed when the tables are acyclic. -/
theorem Listed.acyclic {l : List Part} (h : Listed d l) : Acyclic d := by
  obtain ⟨n, hl⟩ := h
  intro x hx
  have h0 : (listTables d n (0, 0)).isSome := by simp [hl]
  rcases reflTransGen_iff_eq_or_transGen.1 hx with rfl | hx
  · exact not_transGen_self h0
  · obtain ⟨m, -, hm⟩ := listTables_below h0 hx
    exact not_transGen_self hm

end Tables

/-! ## What the scan finds -/

section Scan
variable {d : Block} {n mem sector primary : Nat}

theorem numberFrom_append (n : Nat) (l l' : List Part) :
    numberFrom n (l ++ l') = numberFrom n l ++ numberFrom (n + l.length) l' := by
  simp only [numberFrom, zipIdx_append, map_append]
  rw [Nat.add_right_comm]

theorem numberFrom_injective (n : Nat) : Function.Injective (numberFrom n) := by
  intro l l' h
  have hback : ∀ l, (numberFrom n l).map (fun x => (⟨x.type, x.start, x.size⟩ : Part)) = l := by
    intro l
    simp only [numberFrom, List.map_map]
    exact List.zipIdx_map_fst (n + 1) l
  rw [← hback l, h, hback]

/-- The calls for the partitions `l` and some messages are added to the log. -/
def Log.Grows (log : Log) (l : List Part) (log' : Log) : Prop :=
  log'.partNr = log.partNr + l.length ∧ log'.found = log.found ++ numberFrom log.partNr l

/-- `f` finds the partitions `l`. -/
def Finds (f : Log → Option Log) (l : List Part) : Prop := ∀ log, ∃ log', f log = some log' ∧ log.Grows l log'

theorem Log.Grows.trans {log log' log'' : Log} {l l' : List Part} (h : log.Grows l log') (h' : log'.Grows l' log'') :
    log.Grows (l ++ l') log'' := by
  obtain ⟨h1, h2⟩ := h
  obtain ⟨h3, h4⟩ := h'
  refine ⟨by rw [h3, h1, length_append]; omega, ?_⟩
  rw [h4, h2, h1, numberFrom_append, append_assoc]

theorem Log.grows_print (log : Log) (m : Msg) : log.Grows [] (log.print m) :=
  ⟨rfl, (append_nil _).symm⟩

theorem Log.grows_foundPartition (log : Log) (type : UInt8) (start size : Nat) :
    log.Grows [⟨type, start, size⟩] (log.foundPartition type start size) := ⟨rfl, rfl⟩

/-- The partitions that one entry of the table in sector 0 gives, when `below`
are those of the extended table in a sector. -/
def entryParts (below : Nat → List Part) (e : Entry) : List Part :=
  if e.empty then [] else if e.extended then below e.offset else [⟨e.type, e.offset, e.size⟩]

variable {read : Nat → Nat → Log → Option Log} {e : Entry} {es : List Entry}

theorem finds_scanEntry (hlt : e.offset < 2 ^ 32)
    (h : e.empty = false → e.extended = true → Finds (read e.offset e.offset) []) :
    Finds (scanEntry read 0 0 e) (entryParts (fun _ => []) e) := by
  intro log
  unfold scanEntry entryParts
  cases hemp : e.empty with
  | true => exact ⟨log, rfl, rfl, (append_nil _).symm⟩
  | false =>
    cases hext : e.extended with
    | false =>
      rw [Nat.add_zero, Nat.mod_eq_of_lt hlt]
      exact ⟨_, rfl, log.grows_foundPartition ..⟩
    | true =>
      obtain ⟨log', h1, h2⟩ := h hemp hext (log.print (.extendedIn 0))
      exact ⟨log', h1, (log.grows_print _).trans h2⟩

theorem finds_scanEntries {f : Entry → List Part} (h : ∀ e ∈ es, Finds (scanEntry read sector primary e) (f e)) :
    Finds (scanEntries read sector primary es) (es.flatMap f) := by
  induction es with
  | nil => exact fun log => ⟨log, rfl, rfl, (append_nil _).symm⟩
  | cons e es ih =>
    intro log
    obtain ⟨log', h1, h2⟩ := h e (mem_cons_self ..) log
    obtain ⟨log'', h3, h4⟩ := ih (fun e' he' => h e' (mem_cons_of_mem _ he')) log'
    refine ⟨log'', ?_, h2.trans h4⟩
    simp only [scanEntries, h1]
    exact h3

/-- A table that cannot be scanned keeps the loop from ending. -/
theorem scanEntries_eq_none (he : e ∈ es) (h : ∀ log, scanEntry read sector primary e log = none) (log : Log) :
    scanEntries read sector primary es log = none := by
  induction es generalizing log with
  | nil => cases he
  | cons e' es ih =>
    simp only [scanEntries]
    rcases mem_cons.1 he with rfl | he
    · rw [h log]; rfl
    · cases scanEntry read sector primary e' log with
      | none => rfl
      | some log' => exact ih he log'

/-! ## The scan of sector 0 -/

/-- The extended entries of the table in sector 0. -/
def Block.extended (d : Block) : List Entry :=
  (d.read 0).partitions.filter fun e => !e.empty && e.extended

theorem mem_extended :
    e ∈ d.extended ↔ e ∈ (d.read 0).partitions ∧ e.empty = false ∧ e.extended = true := by
  simp [Block.extended]

/-- Sector 0 has a table. -/
def HasTable (d : Block) : Prop := 0 < d.size ∧ (d.read 0).signature = 0xaa55

/-- No extended entry of the table in sector 0 leads to a sector on the device. -/
def Scannable (d : Block) : Prop := HasTable d → ∀ e ∈ d.extended, d.size ≤ e.offset

/-- The disks of the size of `d` with its sector 0: the scan cannot tell them
apart. -/
def SameTable (d d' : Block) : Prop := d'.size = d.size ∧ d'.data 0 = d.data 0

theorem SameTable.read_zero {d' : Block} (h : SameTable d d') : d'.read 0 = d.read 0 := by
  simp only [Block.read, h.2]

theorem readPartitionTable_congr {d' : Block} (h : SameTable d d') (mem : Nat) :
    readPartitionTable d' mem = readPartitionTable d mem := by
  induction mem with
  | zero =>
    funext sector primary log
    rw [readPartitionTable, readPartitionTable, h.1]
  | succ mem ih =>
    funext sector primary log
    rw [readPartitionTable, readPartitionTable, h.1, h.read_zero, ih]

theorem finds_pastEnd (h : d.size ≤ sector) : Finds (readPartitionTable d mem sector primary) [] := by
  intro log
  refine ⟨log.print (.pastEnd sector), ?_, log.grows_print _⟩
  cases mem <;> simp only [readPartitionTable, if_pos h]

theorem readPartitionTable_succ (hs : sector < d.size) (hsig : (d.read 0).signature = 0xaa55) (log : Log) :
    readPartitionTable d (mem + 1) sector primary log =
      scanEntries (readPartitionTable d mem) sector primary (d.read 0).partitions log := by
  rw [readPartitionTable, if_neg (Nat.not_le.2 hs)]
  exact if_neg (not_not.2 hsig)

/-- **The scan runs out of memory** when the table of sector 0, read again
below one of its extended entries, leads to a table on the device. -/
theorem readPartitionTable_eq_none (hsig : (d.read 0).signature = 0xaa55) {e' : Entry} (he : e ∈ d.extended)
    (he' : e' ∈ d.extended) (hsz : e.offset < d.size)
    (hloop : e.offset = 0 ∨ (e'.offset + e.offset) % 2 ^ 32 < d.size) (hs : sector < d.size)
    (hp : sector = 0 ∨ primary = e.offset) (log : Log) : readPartitionTable d mem sector primary log = none := by
  induction mem generalizing sector primary log with
  | zero => simp only [readPartitionTable, if_neg (Nat.not_le.2 hs)]
  | succ mem ih =>
    obtain ⟨hm, h1, h2⟩ := mem_extended.1 he
    obtain ⟨hm', h1', h2'⟩ := mem_extended.1 he'
    rw [readPartitionTable_succ hs hsig]
    by_cases h0 : sector = 0
    · -- read as the table of sector 0, it leads to `e.offset`
      refine scanEntries_eq_none hm (fun log => ?_) log
      simp only [scanEntry, h1, h2, h0, if_true, Bool.false_eq_true, if_false]
      exact ih hsz (.inr rfl) _
    · obtain rfl : primary = e.offset := hp.resolve_left h0
      rcases hloop with hz | hlt
      · refine scanEntries_eq_none hm (fun log => ?_) log
        simp only [scanEntry, h1, h2, h0, if_true, Bool.false_eq_true, if_false, hz]
        exact ih (by omega) (.inl rfl) _
      · refine scanEntries_eq_none hm' (fun log => ?_) log
        simp only [scanEntry, h1', h2', h0, if_true, Bool.false_eq_true, if_false]
        exact ih hlt (.inr rfl) _

theorem partitionScan_found {log : Log} (h : readPartitionTable d mem 0 0 .empty = some log) :
    ∃ log', partitionScan d mem = some log' ∧ log'.found = log.found := by
  rw [partitionScan, h, Option.bind_eq_bind, Option.bind_some]
  by_cases hn : log.partNr = 0
  · exact ⟨_, if_pos hn, rfl⟩
  · exact ⟨_, if_neg hn, rfl⟩

/-- The listing of sector 0, when `below` are the partitions below its
extended entries. -/
theorem listTables_sector0 (below : Nat → List Part) (hd : HasTable d)
    (h : ∀ e ∈ d.extended, listTables d n (e.offset, e.offset) = some (below e.offset)) :
    listTables d (n + 1) (0, 0) = some ((d.read 0).partitions.flatMap (entryParts below)) := by
  have hentries : ∀ es, (∀ e ∈ es, e ∈ (d.read 0).partitions) →
      listEntries (listTables d n) (0, 0) es = some (es.flatMap (entryParts below)) := by
    intro es hes
    induction es with
    | nil => rfl
    | cons e es ih =>
      have hrest := ih fun e' he' => hes e' (mem_cons_of_mem _ he')
      have hfirst : listEntry (listTables d n) (0, 0) e = some (entryParts below e) := by
        rw [listEntry, entryParts]
        cases h1 : e.empty with
        | true => rfl
        | false =>
          cases h2 : e.extended with
          | true => exact h e (mem_extended.2 ⟨hes e (mem_cons_self ..), h1, h2⟩)
          | false => simp
      simp only [listEntries, hfirst, hrest, flatMap_cons]
      rfl
  rw [listTables, if_neg (not_or.2 ⟨Nat.not_le.2 hd.1, not_not.2 hd.2⟩)]
  exact hentries _ fun _ he => he

theorem finds_sector0 (mem : Nat) (hd : HasTable d) (h : ∀ e ∈ d.extended, d.size ≤ e.offset) :
    Finds (readPartitionTable d (mem + 1) 0 0) ((d.read 0).partitions.flatMap (entryParts fun _ => [])) := by
  intro log
  rw [readPartitionTable_succ hd.1 hd.2]
  refine finds_scanEntries (fun e he => finds_scanEntry (offset_lt he) fun hemp hext => ?_) log
  exact finds_pastEnd (h e (mem_extended.2 ⟨he, hemp, hext⟩))

theorem scanCorrect_of_scannable (h : Scannable d) : ScanCorrect d := by
  suffices hfound : ∃ l, Listed d l ∧ ∀ mem ≥ 1, ∃ log, partitionScan d mem = some log ∧ log.found = numberFrom 0 l by
    obtain ⟨l, hl, hlog⟩ := hfound
    refine ⟨⟨1, fun mem hm => ?_⟩, fun _ => ⟨l, hl, 1, hlog⟩⟩
    obtain ⟨log, h1, -⟩ := hlog mem hm
    simp [h1]
  by_cases hd : HasTable d
  · refine ⟨_, ⟨1, listTables_sector0 (fun _ => []) hd fun e he => if_pos (h hd e he)⟩, fun mem hm => ?_⟩
    obtain ⟨mem, rfl⟩ := Nat.exists_eq_add_of_le' hm
    obtain ⟨log, h1, -, h2⟩ := finds_sector0 mem hd (h hd) .empty
    rw [Log.empty, nil_append] at h2
    rw [← h2]
    exact partitionScan_found h1
  · have hor : d.size ≤ 0 ∨ (d.read 0).signature ≠ 0xaa55 := by
      simpa only [HasTable, not_and_or, Nat.not_lt] using hd
    refine ⟨[], ⟨1, by rw [listTables, if_pos hor]⟩, fun mem hm => ?_⟩
    obtain ⟨mem, rfl⟩ := Nat.exists_eq_add_of_le' hm
    obtain ⟨log, h1, h2⟩ : ∃ log, readPartitionTable d (mem + 1) 0 0 .empty = some log ∧ log.found = [] := by
      by_cases h0 : d.size ≤ 0
      · simp [readPartitionTable, h0, Log.print, Log.empty]
      · simp [readPartitionTable, h0, hor.resolve_left h0, Log.print, Log.empty]
    rw [show numberFrom 0 [] = log.found from h2.symm]
    exact partitionScan_found h1

/-! ## What the scan cannot tell apart -/

/-- Sector 0 of `d`, and `b` in every other sector. -/
def Block.filled (d : Block) (b : Nat → UInt8) : Block where
  size := d.size
  data sector := if sector = 0 then d.data 0 else b
  size_lt := d.size_lt

/-- A table with one partition at the sector that follows. -/
def onePartition (o : Nat) : UInt8 :=
  if o = 510 then 0x55 else if o = 511 then 0xaa else if o = 450 then 0x21 else if o = 454 ∨ o = 458 then 1 else 0

theorem sameTable_filled (d : Block) (b : Nat → UInt8) : SameTable d (d.filled b) := ⟨rfl, rfl⟩

theorem read_filled {b : Nat → UInt8} (hs : sector ≠ 0) : (d.filled b).read sector = (d.filled b).read 1 := by
  simp only [Block.read, Block.filled, if_neg hs, if_neg Nat.one_ne_zero]

theorem listTables_blank (hs : sector ≠ 0) :
    listTables (d.filled fun _ => 0) 1 (sector, sector) = some [] := by
  refine if_pos (.inr ?_)
  rw [read_filled hs]
  show (0 : UInt8).toNat + (0 : UInt8).toNat * 256 ≠ 0xaa55
  decide

theorem listTables_onePartition (hs : sector ≠ 0) :
    listTables (d.filled onePartition) 1 (sector, sector) =
      some (if d.size ≤ sector then [] else [⟨0x21, sector + 1, 1⟩]) := by
  have hsig : ((d.filled onePartition).read 1).signature = 0xaa55 := by
    simp [Block.read, Block.filled, onePartition]
  have hpart : ((d.filled onePartition).read 1).partitions = [⟨0x21, 1, 1⟩, ⟨0, 0, 0⟩, ⟨0, 0, 0⟩, ⟨0, 0, 0⟩] := by
    simp [Block.read, Block.filled, Entry.decode, wordAt, onePartition, range_succ]
  have hsize : (d.filled onePartition).size = d.size := rfl
  rw [listTables, read_filled hs, hpart, hsig, hsize]
  by_cases h : d.size ≤ sector
  · rw [if_pos (.inl h), if_pos h]
  · simp only [h, ne_eq, not_true, or_false, if_false]
    rfl

theorem listed_filled {b : Nat → UInt8} {below : Nat → List Part} (hd : HasTable d)
    (hz : ∀ e ∈ d.extended, e.offset ≠ 0)
    (hb : ∀ {sector}, sector ≠ 0 → listTables (d.filled b) 1 (sector, sector) = some (below sector)) :
    Listed (d.filled b) ((d.read 0).partitions.flatMap (entryParts below)) := by
  have hread := (sameTable_filled d b).read_zero
  have hext : (d.filled b).extended = d.extended := by simp only [Block.extended, hread]
  refine ⟨2, ?_⟩
  rw [listTables_sector0 (d := d.filled b) below, hread]
  · exact ⟨hd.1, by rw [hread]; exact hd.2⟩
  · rw [hext]
    exact fun e he => hb (hz e he)

/-- A correct scan of both disks would find lists of different lengths. -/
theorem scannable_of_scanCorrect (h : ∀ d', SameTable d d' → ScanCorrect d') : Scannable d := by
  intro hd e he
  by_contra hlt
  have hz : ∀ e ∈ d.extended, e.offset ≠ 0 := by
    intro e he hz
    obtain ⟨⟨n, hn⟩, -⟩ := h d ⟨rfl, rfl⟩
    have hnone : readPartitionTable d n 0 0 .empty = none :=
      readPartitionTable_eq_none hd.2 he he (by rw [hz]; exact hd.1) (.inl hz) hd.1 (.inl rfl) _
    simpa [partitionScan, hnone] using hn n le_rfl
  have hl1 := listed_filled hd hz listTables_blank
  have hl2 := listed_filled hd hz listTables_onePartition
  obtain ⟨l1, hl1', n1, h1⟩ := (h _ (sameTable_filled d _)).2 hl1.acyclic
  obtain ⟨l2, hl2', n2, h2⟩ := (h _ (sameTable_filled d _)).2 hl2.acyclic
  obtain ⟨log1, hs1, hf1⟩ := h1 (max n1 n2) (le_max_left ..)
  obtain ⟨log2, hs2, hf2⟩ := h2 (max n1 n2) (le_max_right ..)
  have hsame : log1 = log2 := by
    rw [partitionScan, readPartitionTable_congr (sameTable_filled d _)] at hs1 hs2
    exact Option.mem_unique hs1 hs2
  subst hsame
  have heq : l1 = l2 := numberFrom_injective 0 (hf1.symm.trans hf2)
  rw [hl1'.eq hl1, hl2'.eq hl2] at heq
  have hlen := congrArg length heq
  rw [length_flatMap, length_flatMap] at hlen
  refine Nat.ne_of_lt (sum_lt_sum _ _ (fun e' _ => ?_) ⟨e, (mem_extended.1 he).1, ?_⟩) hlen
  · simp only [entryParts]
    split
    · exact le_rfl
    · split
      · exact Nat.zero_le _
      · exact le_rfl
  · simp [entryParts, (mem_extended.1 he).2, hlt]

/-- **The partition scan ends and is complete on a scannable disk**, and on
no other, unless by what the sectors beyond sector 0 happen to hold. -/
theorem partition_scan_iff (d : Block) : (∀ d', SameTable d d' → ScanCorrect d') ↔ Scannable d := by
  constructor
  · exact scannable_of_scanCorrect
  · intro h d' hd
    refine scanCorrect_of_scannable ?_
    simp only [Scannable, HasTable, Block.extended, hd.read_zero, hd.1] at h ⊢
    exact h

/-! ## A disk with one extended partition -/

/-- Sector 0 of 100 sectors has an extended partition at sector 10, whose table
has one logical partition. -/
def extendedDisk : Block where
  size := 100
  data sector o :=
    if o = 510 then 0x55 else if o = 511 then 0xaa
    else if sector = 0 then if o = 450 then 0x05 else if o = 454 then 10 else if o = 458 then 50 else 0
    else if sector = 10 then if o = 450 then 0x21 else if o = 454 then 1 else if o = 458 then 20 else 0
    else 0
  size_lt := by decide

/-- The one partition is at sector 11, and the scan runs out of memory. -/
theorem extended_partition_not_scanned : Acyclic extendedDisk ∧ Listed extendedDisk [⟨0x21, 11, 20⟩] ∧
    ∀ mem, partitionScan extendedDisk mem = none := by
  have hl : Listed extendedDisk [⟨0x21, 11, 20⟩] := ⟨2, by decide⟩
  have hsig : (extendedDisk.read 0).signature = 0xaa55 := rfl
  let e : Entry := ⟨0x05, 10, 50⟩
  have he : e ∈ extendedDisk.extended :=
    mem_extended.2 ⟨mem_map.2 ⟨0, mem_range.2 (by omega), rfl⟩, rfl, rfl⟩
  have hsize : extendedDisk.size = 100 := rfl
  have hoffset : e.offset = 10 := rfl
  refine ⟨hl.acyclic, hl, fun mem => ?_⟩
  have hnone : readPartitionTable extendedDisk mem 0 0 .empty = none :=
    readPartitionTable_eq_none hsig he he (by omega) (.inr (by omega)) (by omega) (.inl rfl) .empty
  simp [partitionScan, hnone]

end Scan

end Pintos.Partition
