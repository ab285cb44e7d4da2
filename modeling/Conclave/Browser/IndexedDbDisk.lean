import Conclave.Browser.IndexedDb

/-! What is written of a database is read back, exactly when nothing in it lies at the
depth limit and no property of an object was left out. -/

namespace Conclave.Browser.IndexedDb

open Lib Reader

variable {α γ : Type} {s : Bool}

/-! ### Readers of fields -/

theorem reads_uint {k n : ℕ} (hn : n < 2 ^ (8 * k)) (s : Bool) :
    Reads (DiskReader.uint k) (toLe k n) s s n := by
  have htake := reads_take (toLe k n) s
  rw [toLe_length] at htake
  have hall : (toLe k n).take k = toLe k n := List.take_of_length_le (toLe_length k n).le
  refine htake.bind_eq ?_
  rw [DiskReader.fromLeBytes, if_pos (toLe_length k n).ge, hall, leNat_toLe, Nat.mod_eq_of_lt hn]

theorem reads_str {t : String} (ht : (utf8 t).length < 2 ^ 32) (s : Bool) :
    Reads DiskReader.str (wrStr t) s s t := by
  exact (reads_uint (k := 4) ht s).bind ((reads_take (utf8 t) s).bind_eq (by rw [fromUtf8_utf8]))

theorem reads_header {magic : Bytes} {version : ℕ} (hv : version < 2 ^ 32) (s : Bool) :
    Reads (DiskReader.header magic version) (magic ++ wrU32 version) s s () := by
  refine (reads_take magic s).bind ?_
  rw [if_neg (not_not.mpr rfl)]
  exact (reads_uint (k := 4) hv s).bind_eq (if_neg (not_not.mpr rfl))

/-- A count and its elements, when the file is as long as they are. -/
theorem readsUnless_counted {as : List γ} {bad : γ → Prop} {write : γ → Bytes} {g : γ → α}
    {item : DiskReader α} {total : ℕ} (hlen : as.length < 2 ^ 32) (htotal : as.length ≤ total)
    (s : Bool) (h : ∀ a ∈ as, ReadsUnless (bad a) item (write a) s s (g a)) :
    ReadsUnless (∃ a ∈ as, bad a) (DiskReader.counted total item)
      (wrU32 as.length ++ as.flatMap write) s s (as.map g) := by
  have hitems : ReadsUnless (∃ a ∈ as, bad a)
      (if total < as.length then fail else times as.length item) (as.flatMap write) s s
        (as.map g) := by
    rw [if_neg (not_lt.mpr htotal)]
    exact readsUnless_times s h
  exact (reads_uint (k := 4) hlen s).bind_unless hitems

theorem length_le_flatMap {as : List γ} (write : γ → Bytes) (h : ∀ a ∈ as, 0 < (write a).length) :
    as.length ≤ (as.flatMap write).length := by
  induction as with
  | nil => exact Nat.zero_le _
  | cons a as ih =>
    have ha := h a List.mem_cons_self
    have has := ih fun a' ha' => h a' (List.mem_cons_of_mem a ha')
    rw [List.flatMap_cons, List.length_append, List.length_cons]
    omega

theorem mem_length_le {as : List γ} (write : γ → Bytes) {a : γ} (h : a ∈ as) :
    (write a).length ≤ (as.flatMap write).length := by
  induction as with
  | nil => cases h
  | cons b as ih =>
    rw [List.flatMap_cons, List.length_append]
    rcases List.mem_cons.mp h with rfl | h
    · exact Nat.le_add_right _ _
    · exact (ih h).trans (Nat.le_add_left _ _)

/-! ### Values -/

/-- A value made of data, with counts and lengths below 2^32. The keys of an object are
distinct. -/
inductive Storable : Value → Prop where
  | undefined : Storable .undefined
  | null : Storable .null
  | bool (b : Bool) : Storable (.bool b)
  | number (bits : UInt64) : Storable (.number bits)
  | string {s : String} (h : (utf8 s).length < 2 ^ 32) : Storable (.string s)
  | array {items : List Value} (hlen : items.length < 2 ^ 32) (h : ∀ v ∈ items, Storable v) :
    Storable (.array items)
  | object {map : List (String × Value)} (hlen : map.length < 2 ^ 32)
    (hnodup : (Entries.keys map).Nodup) (hkeys : ∀ e ∈ map, (utf8 e.1).length < 2 ^ 32)
    (h : ∀ e ∈ map, Storable e.2) : Storable (.object map)

/-- Some part of the value that is written lies at the limit. -/
def TooDeep : ℕ → Value → Prop
  | 0, _ => True
  | room + 1, .array items => ∃ v ∈ items, TooDeep room v
  | room + 1, .object map => ∃ e ∈ map.filter isStored, TooDeep room e.2
  | _ + 1, _ => False

/-- The value without the properties that are not written. -/
def kept : ℕ → Value → Value
  | room + 1, .array items => .array (items.map (kept room))
  | room + 1, .object map => .object ((map.filter isStored).map fun e => (e.1, kept room e.2))
  | _, v => v

theorem encodeValue_pos (room : ℕ) (v : Value) : 0 < (encodeValue room v).length := by
  cases room with
  | zero => exact Nat.one_pos
  | succ room => cases v <;> exact Nat.succ_pos _

theorem foldl_put {acc es : List (String × Value)} (h : (Entries.keys (acc ++ es)).Nodup) :
    es.foldl (fun map e => Entries.put map e.1 e.2) acc = acc ++ es := by
  induction es generalizing acc with
  | nil => exact (List.append_nil acc).symm
  | cons e es ih =>
    have hnew : e.1 ∉ Entries.keys acc := by
      have hsplit : Entries.keys (acc ++ e :: es) = Entries.keys acc ++ e.1 :: Entries.keys es := by
        simp [Entries.keys]
      rw [hsplit] at h
      exact fun hmem => (List.nodup_append.mp h).2.2 _ hmem _ List.mem_cons_self rfl
    have hput : Entries.put acc e.1 e.2 = acc ++ [e] := by
      rw [Entries.put, Entries.upsert, if_neg hnew]
    have happ : acc ++ e :: es = acc ++ [e] ++ es := by simp
    rw [List.foldl_cons, hput, happ]
    exact ih (happ ▸ h)

theorem decodeValue_tagged (room total tag : ℕ) {bad : Prop} {w : Bytes} {v : Value}
    (htag : tag < 2 ^ 8)
    (h : ReadsUnless bad (decodeTagged total (decodeValue total room) tag) w s s v) :
    ReadsUnless bad (decodeValue total (room + 1)) (toLe 1 tag ++ w) s s v :=
  (reads_uint (k := 1) htag s).bind_unless h

theorem decodeValue_encodeValue {room total : ℕ} {v : Value} (hv : Storable v)
    (htotal : (encodeValue room v).length ≤ total) (s : Bool) :
    ReadsUnless (TooDeep room v) (decodeValue total room) (encodeValue room v) s s
      (kept room v) := by
  induction room generalizing v with
  | zero => exact ⟨fun h => absurd trivial h, fun _ _ => rfl⟩
  | succ room ih =>
    cases hv with
    | undefined => exact decodeValue_tagged room total 0 (by norm_num) (Reads.pure _ s).unless
    | null => exact decodeValue_tagged room total 1 (by norm_num) (Reads.pure _ s).unless
    | bool b =>
      have hb : Reads (DiskReader.uint 1) [if b then 1 else 0] s s (if b then 1 else 0) := by
        cases b
        · exact reads_uint (k := 1) (n := 0) (by norm_num) s
        · exact reads_uint (k := 1) (n := 1) (by norm_num) s
      have hbool := decodeValue_tagged room total 2 (by norm_num)
        (hb.map (g := fun n => Value.bool (n ≠ 0))).unless
      exact hbool.cast Iff.rfl rfl (by cases b <;> rfl)
    | number bits =>
      have hbits := (reads_uint (k := 8) bits.toNat_lt s).map
        (g := fun n => Value.number (UInt64.ofNat n))
      have hnumber := decodeValue_tagged room total 3 (by norm_num)
        hbits.unless
      exact hnumber.cast Iff.rfl rfl (by rw [UInt64.ofNat_toNat]; rfl)
    | string h =>
      have hstr := (reads_str h s).map (g := Value.string)
      exact decodeValue_tagged room total 4 (by norm_num) hstr.unless
    | @array items hlen h =>
      rw [encodeValue, List.length_cons, List.length_append] at htotal
      have hcount : items.length ≤ (items.flatMap (encodeValue room)).length :=
        length_le_flatMap _ fun v _ => encodeValue_pos room v
      have hbody : (items.flatMap (encodeValue room)).length ≤ total := by omega
      have hitem : ∀ v ∈ items, ReadsUnless (TooDeep room v) (decodeValue total room)
          (encodeValue room v) s s (kept room v) := fun v hv =>
        ih (h v hv) ((mem_length_le _ hv).trans hbody)
      have hitems := (readsUnless_counted hlen (hcount.trans hbody) s hitem).map
        (g := Value.array)
      exact decodeValue_tagged room total 5 (by norm_num) hitems
    | @object map hlen hnodup hkeys h =>
      rw [encodeValue, List.length_cons, List.length_append] at htotal
      set entries := map.filter isStored with hentries
      have hsub : ∀ e ∈ entries, e ∈ map := fun e he => (List.mem_filter.mp he).1
      have hcount : entries.length ≤
          (entries.flatMap fun e => wrStr e.1 ++ encodeValue room e.2).length :=
        length_le_flatMap _ fun e _ => by
          have := encodeValue_pos room e.2
          rw [List.length_append]
          omega
      have hbody : (entries.flatMap fun e => wrStr e.1 ++ encodeValue room e.2).length ≤ total := by
        omega
      have hfield : ∀ e ∈ entries, ReadsUnless (TooDeep room e.2) (do
          let k ← DiskReader.str
          let val ← decodeValue total room
          return (k, val)) (wrStr e.1 ++ encodeValue room e.2) s s (e.1, kept room e.2) := by
        intro e he
        have hle := mem_length_le (fun e => wrStr e.1 ++ encodeValue room e.2) he
        rw [List.length_append] at hle
        have hval := ih (h e (hsub e he)) (by omega)
        exact (reads_str (hkeys e (hsub e he)) s).bind_unless hval.map
      have hlen' : entries.length < 2 ^ 32 := (List.length_filter_le _ _).trans_lt hlen
      have hmap := (readsUnless_counted hlen' (hcount.trans hbody) s hfield).map
        (g := fun es => Value.object (es.foldl (fun map e => Entries.put map e.1 e.2) []))
      refine (decodeValue_tagged room total 6 (by norm_num) hmap).cast Iff.rfl rfl ?_
      have hkeys' : (Entries.keys ([] ++ entries.map fun e => (e.1, kept room e.2))).Nodup := by
        have heq : Entries.keys (entries.map fun e => (e.1, kept room e.2)) = Entries.keys entries := by
          simp [Entries.keys]
        rw [List.nil_append, heq]
        exact hnodup.sublist (List.filter_sublist.map _)
      rw [foldl_put hkeys', kept]
      rfl

/-! ### Databases -/

def RowSnapshot.Storable (row : RowSnapshot) : Prop :=
  IndexedDb.Storable row.key ∧ IndexedDb.Storable row.value

def RowSnapshot.TooDeep (row : RowSnapshot) : Prop :=
  IndexedDb.TooDeep MAX_DEPTH row.key ∨ IndexedDb.TooDeep MAX_DEPTH row.value

def RowSnapshot.kept (row : RowSnapshot) : RowSnapshot :=
  ⟨IndexedDb.kept MAX_DEPTH row.key, IndexedDb.kept MAX_DEPTH row.value⟩

structure StoreSnapshot.Storable (st : StoreSnapshot) : Prop where
  name : (utf8 st.name).length < 2 ^ 32
  keyPath : ∀ kp ∈ st.keyPath, (utf8 kp).length < 2 ^ 32
  count : st.rows.length < 2 ^ 32
  rows : ∀ row ∈ st.rows, row.Storable

def StoreSnapshot.kept (st : StoreSnapshot) : StoreSnapshot :=
  { st with rows := st.rows.map RowSnapshot.kept }

/-- A database of storable values, its counts and lengths below 2^32. -/
structure DbSnapshot.Storable (db : DbSnapshot) : Prop where
  name : (utf8 db.name).length < 2 ^ 32
  count : db.stores.length < 2 ^ 32
  stores : ∀ st ∈ db.stores, st.Storable

def DbSnapshot.kept (db : DbSnapshot) : DbSnapshot :=
  { db with stores := db.stores.map StoreSnapshot.kept }

theorem decodeRow_encodeRow {row : RowSnapshot} {total : ℕ} (h : row.Storable)
    (htotal : (encodeRow row).length ≤ total) (s : Bool) :
    ReadsUnless row.TooDeep (readRow total) (encodeRow row) s s row.kept := by
  rw [encodeRow, List.length_append] at htotal
  have hkey : (encodeValue MAX_DEPTH row.key).length ≤ total := by omega
  have hvalue : (encodeValue MAX_DEPTH row.value).length ≤ total := by omega
  exact (decodeValue_encodeValue h.1 hkey s).bind (decodeValue_encodeValue h.2 hvalue s).map

theorem reads_keyPath {kp : Option String} (h : ∀ k ∈ kp, (utf8 k).length < 2 ^ 32) (s : Bool) :
    Reads readKeyPath (encodeKeyPath kp) s s kp := by
  cases kp with
  | none => exact (reads_uint (k := 1) (n := 0) (by norm_num) s).bind_eq (if_pos rfl)
  | some k =>
    have hstr := (reads_str (h k rfl) s).map (g := some)
    exact (reads_uint (k := 1) (n := 1) (by norm_num) s).bind hstr

theorem reads_flag (b s : Bool) :
    Reads (DiskReader.uint 1) [if b then 1 else 0] s s (if b then 1 else 0) := by
  cases b
  · exact reads_uint (k := 1) (n := 0) (by norm_num) s
  · exact reads_uint (k := 1) (n := 1) (by norm_num) s

theorem decodeStore_encodeStore {st : StoreSnapshot} {total : ℕ} (h : st.Storable)
    (htotal : (encodeStore st).length ≤ total) (s : Bool) :
    ReadsUnless (∃ row ∈ st.rows, row.TooDeep) (readStore total) (encodeStore st) s s st.kept := by
  have hbody : (st.rows.flatMap encodeRow).length ≤ total := by
    refine le_trans ?_ htotal
    rw [encodeStore, List.length_append]
    exact Nat.le_add_left _ _
  have hcount : st.rows.length ≤ (st.rows.flatMap encodeRow).length :=
    length_le_flatMap _ fun row _ => by
      have := encodeValue_pos MAX_DEPTH row.key
      rw [encodeRow, List.length_append]
      omega
  have hrows := readsUnless_counted h.count (hcount.trans hbody) s fun row hrow =>
    decodeRow_encodeRow (h.rows row hrow) ((mem_length_le _ hrow).trans hbody) s
  simp only [readStore, encodeStore, List.append_assoc]
  refine (reads_str h.name s).bind_unless ?_
  refine (reads_keyPath h.keyPath s).bind_unless ?_
  refine (reads_flag st.autoIncrement s).bind_unless ?_
  refine (reads_uint (k := 8) st.autoKey.toNat_lt s).bind_unless ?_
  refine hrows.map.cast Iff.rfl rfl ?_
  rw [UInt64.ofNat_toNat, StoreSnapshot.kept]
  cases st.autoIncrement <;> rfl

theorem decodeDb_encodeDb {db : DbSnapshot} (h : db.Storable) (s : Bool) :
    ReadsUnless (∃ st ∈ db.stores, ∃ row ∈ st.rows, row.TooDeep) (readDb db.toBytes.length)
      db.toBytes s s db.kept := by
  have hbody : (db.stores.flatMap encodeStore).length ≤ db.toBytes.length := by
    rw [DbSnapshot.toBytes, List.length_append]
    exact Nat.le_add_left _ _
  have hcount : db.stores.length ≤ (db.stores.flatMap encodeStore).length :=
    length_le_flatMap _ fun st _ => by simp [encodeStore, wrU32]
  have hstores := readsUnless_counted h.count (hcount.trans hbody) s fun st hst =>
    decodeStore_encodeStore (h.stores st hst) ((mem_length_le _ hst).trans hbody) s
  have hwhole : db.toBytes = MAGIC ++ wrU32 DISK_VERSION ++ (wrStr db.name ++
      (wrU32 db.version.toNat ++ (wrU32 db.stores.length ++ db.stores.flatMap encodeStore))) := by
    simp only [DbSnapshot.toBytes, List.append_assoc]
  have hversion : DISK_VERSION < 2 ^ 32 := by decide
  generalize db.toBytes.length = total at *
  rw [hwhole]
  refine (reads_header hversion s).bind_unless ?_
  refine (reads_str h.name s).bind_unless ?_
  refine (reads_uint (k := 4) db.version.toNat_lt s).bind_unless ?_
  exact hstores.map.cast Iff.rfl rfl (by rw [UInt32.ofNat_toNat]; rfl)

/-! ### Cache entries -/

structure EntryStorable (e : String × Value) : Prop where
  url : (utf8 e.1).length < 2 ^ 32
  value : Storable e.2
  blob : (encodeValueBlob e.2).length < 2 ^ 32

def keptEntry (e : String × Value) : String × Value := (e.1, kept MAX_DEPTH e.2)

theorem readValueBlob_encodeValueBlob {v : Value} (h : Storable v) (s : Bool) :
    ReadsUnless (TooDeep MAX_DEPTH v) (readValueBlob (encodeValueBlob v).length)
      (encodeValueBlob v) s s (kept MAX_DEPTH v) := by
  have hbody : (encodeValue MAX_DEPTH v).length ≤ (encodeValueBlob v).length := by
    rw [encodeValueBlob, List.length_append]
    exact Nat.le_add_left _ _
  have hversion : DISK_VERSION < 2 ^ 32 := by decide
  exact (reads_header hversion s).bind_unless (decodeValue_encodeValue h hbody s)

theorem readCacheEntry_encode {e : String × Value} (h : EntryStorable e) (s : Bool) :
    ReadsUnless (TooDeep MAX_DEPTH e.2) readCacheEntry (encodeCacheEntry e) s s (keptEntry e) := by
  simp only [encodeCacheEntry, List.append_assoc]
  refine (reads_str h.url s).bind_unless ?_
  refine (reads_uint (k := 4) h.blob s).bind_unless ?_
  have hval := (readValueBlob_encodeValueBlob h.value s).nested.map
    (g := fun v => (e.1, v))
  exact ((reads_take _ s).bind_unless hval).cast Iff.rfl (List.append_nil _) rfl

theorem readCache_encodeCache {entries : List (String × Value)} (hlen : entries.length < 2 ^ 32)
    (h : ∀ e ∈ entries, EntryStorable e) (s : Bool) :
    ReadsUnless (∃ e ∈ entries, TooDeep MAX_DEPTH e.2) (readCache (encodeCache entries).length)
      (encodeCache entries) s s (entries.map keptEntry) := by
  have hbody : (entries.flatMap encodeCacheEntry).length ≤ (encodeCache entries).length := by
    rw [encodeCache, List.length_append]
    exact Nat.le_add_left _ _
  have hcount : entries.length ≤ (entries.flatMap encodeCacheEntry).length :=
    length_le_flatMap _ fun e _ => by simp [encodeCacheEntry, wrStr, wrU32]
  have hentries := readsUnless_counted hlen (hcount.trans hbody) s fun e he =>
    readCacheEntry_encode (h e he) s
  have hwhole : encodeCache entries = CACHE_MAGIC ++ wrU32 CACHE_VERSION ++
      (wrU32 entries.length ++ entries.flatMap encodeCacheEntry) := by
    simp only [encodeCache, List.append_assoc]
  have hversion : CACHE_VERSION < 2 ^ 32 := by decide
  generalize (encodeCache entries).length = total at *
  rw [hwhole]
  exact (reads_header hversion s).bind_unless hentries

/-! ### Any bytes -/

theorem keeps_uint (k : ℕ) : Keeps (DiskReader.uint k) :=
  (keeps_take k).bind_of (returns_take k) fun slice hslice => by
    rw [DiskReader.fromLeBytes, if_pos hslice.ge]
    exact .pure _

theorem keeps_str : Keeps DiskReader.str :=
  (keeps_uint 4).bind fun len => (keeps_take len).bind fun b => by
    cases fromUtf8 b with
    | none => exact keeps_fail
    | some t => exact .pure t

theorem keeps_header (magic : Bytes) (version : ℕ) : Keeps (DiskReader.header magic version) := by
  refine (keeps_take _).bind fun m => ?_
  split_ifs
  · exact keeps_fail
  · refine (keeps_uint 4).bind fun v => ?_
    split_ifs
    · exact keeps_fail
    · exact .pure ()

theorem keeps_counted {item : DiskReader α} (total : ℕ) (h : Keeps item) :
    Keeps (DiskReader.counted total item) := by
  refine (keeps_uint 4).bind fun n => ?_
  split_ifs
  · exact keeps_fail
  · exact keeps_times h n

theorem keeps_decodeValue (total room : ℕ) : Keeps (decodeValue total room) := by
  induction room with
  | zero => exact keeps_fail
  | succ room ih =>
    refine (keeps_uint 1).bind fun tag => ?_
    unfold decodeTagged
    split
    · exact .pure _
    · exact .pure _
    · exact (keeps_uint 1).bind fun b => .pure _
    · exact (keeps_uint 8).bind fun bits => .pure _
    · exact keeps_str.bind fun t => .pure _
    · exact (keeps_counted total ih).bind fun items => .pure _
    · refine (keeps_counted total ?_).bind fun entries => .pure _
      exact keeps_str.bind fun k => ih.bind fun val => .pure _
    · exact keeps_fail

theorem keeps_readDb (total : ℕ) : Keeps (readDb total) := by
  refine (keeps_header _ _).bind fun _ => keeps_str.bind fun name => ?_
  refine (keeps_uint 4).bind fun version => (keeps_counted total ?_).bind fun stores => .pure _
  refine keeps_str.bind fun name => Keeps.bind ?_ fun keyPath => ?_
  · refine (keeps_uint 1).bind fun hasKp => ?_
    split_ifs
    · exact .pure _
    · exact keeps_str.bind fun kp => .pure _
    · exact keeps_fail
  · refine (keeps_uint 1).bind fun autoIncrement => (keeps_uint 8).bind fun autoKey => ?_
    refine (keeps_counted total ?_).bind fun rows => .pure _
    exact (keeps_decodeValue _ _).bind fun key => (keeps_decodeValue _ _).bind fun value => .pure _

theorem keeps_readCache (total : ℕ) : Keeps (readCache total) := by
  refine (keeps_header _ _).bind fun _ => keeps_counted total ?_
  refine keeps_str.bind fun url => (keeps_uint 4).bind fun blobLen => ?_
  refine (keeps_take blobLen).bind fun blob => Keeps.bind (Keeps.nested ?_ blob) fun val => .pure _
  exact (keeps_header _ _).bind fun _ => keeps_decodeValue _ _

theorem run_running {r : DiskReader α} (h : Keeps r) (bytes : Bytes) : (run r bytes).2 = true := by
  rw [run, h bytes false]
  rfl

theorem run_whole {bad : Prop} {r : DiskReader α} {w : Bytes} {a : α}
    (h : ReadsUnless bad r w false false a) :
    (bad → (run r w).1 = none) ∧ (¬ bad → (run r w).1 = some a) := by
  refine ⟨fun hbad => ?_, fun hgood => ?_⟩
  · have hr := h.refuses hbad []
    rwa [List.append_nil] at hr
  · have hr := (h.reads hgood).whole []
    rw [List.append_nil] at hr
    rw [run, hr]

/-! ### The same database -/

/-- Equal above the limit, whatever stands there. -/
def SameUpTo : ℕ → Value → Value → Prop
  | 0, _, _ => True
  | room + 1, .array xs, .array ys => List.Forall₂ (SameUpTo room) xs ys
  | room + 1, .object es, .object fs =>
    List.Forall₂ (fun e f => e.1 = f.1 ∧ SameUpTo room e.2 f.2) es fs
  | _ + 1, v, w => v = w

/-- Nothing of the value lies at the limit, and all of its properties are written. -/
def Whole : ℕ → Value → Prop
  | 0, _ => False
  | room + 1, .array items => ∀ v ∈ items, Whole room v
  | room + 1, .object map => ∀ e ∈ map, isStored e ∧ Whole room e.2
  | _ + 1, _ => True

theorem whole_iff (room : ℕ) (v : Value) :
    Whole room v ↔ ¬ TooDeep room v ∧ SameUpTo room v (kept room v) := by
  induction room generalizing v with
  | zero => simp [Whole, TooDeep]
  | succ room ih =>
    cases v with
    | array items =>
      simp only [Whole, TooDeep, kept, SameUpTo, List.forall₂_map_right_iff, List.forall₂_same, ih]
      push Not
      exact forall₂_and
    | object map =>
      simp only [Whole, TooDeep, kept, SameUpTo, List.forall₂_map_right_iff]
      refine ⟨fun h => ?_, fun ⟨hdeep, hsame⟩ e he => ?_⟩
      · have hall : map.filter isStored = map := List.filter_eq_self.mpr fun e he => (h e he).1
        rw [hall, List.forall₂_same]
        refine ⟨fun ⟨e, he, hdeep⟩ => ?_, fun e he => ⟨rfl, ?_⟩⟩
        · exact ((ih e.2).mp (h e he).2).1 hdeep
        · exact ((ih e.2).mp (h e he).2).2
      · -- the lengths agree, so no property was left out
        have hall : map.filter isStored = map :=
          List.filter_sublist.eq_of_length hsame.length_eq.symm
        rw [hall] at hdeep hsame
        refine ⟨List.filter_eq_self.mp hall e he, (ih e.2).mpr ⟨fun h => hdeep ⟨e, he, h⟩, ?_⟩⟩
        exact (List.forall₂_same.mp hsame e he).2
    | _ => simp [Whole, TooDeep, kept, SameUpTo]

def RowSnapshot.SameUpTo (row row' : RowSnapshot) : Prop :=
  IndexedDb.SameUpTo MAX_DEPTH row.key row'.key ∧ IndexedDb.SameUpTo MAX_DEPTH row.value row'.value

structure StoreSnapshot.SameUpTo (st st' : StoreSnapshot) : Prop where
  name : st.name = st'.name
  keyPath : st.keyPath = st'.keyPath
  autoIncrement : st.autoIncrement = st'.autoIncrement
  autoKey : st.autoKey = st'.autoKey
  rows : List.Forall₂ RowSnapshot.SameUpTo st.rows st'.rows

/-- The same database, but for what lies at the limit. -/
structure DbSnapshot.SameUpTo (db db' : DbSnapshot) : Prop where
  name : db.name = db'.name
  version : db.version = db'.version
  stores : List.Forall₂ StoreSnapshot.SameUpTo db.stores db'.stores

def CacheSameUpTo (entries entries' : List (String × Value)) : Prop :=
  List.Forall₂ (fun e f => e.1 = f.1 ∧ SameUpTo MAX_DEPTH e.2 f.2) entries entries'

def RowSnapshot.Whole (row : RowSnapshot) : Prop :=
  IndexedDb.Whole MAX_DEPTH row.key ∧ IndexedDb.Whole MAX_DEPTH row.value

def DbSnapshot.Whole (db : DbSnapshot) : Prop := ∀ st ∈ db.stores, ∀ row ∈ st.rows, row.Whole

theorem row_whole_iff (row : RowSnapshot) : row.Whole ↔ ¬ row.TooDeep ∧ row.SameUpTo row.kept := by
  rw [RowSnapshot.Whole, RowSnapshot.TooDeep, RowSnapshot.SameUpTo, whole_iff, whole_iff, not_or]
  exact and_and_and_comm

theorem db_same_kept (db : DbSnapshot) :
    db.SameUpTo db.kept ↔ ∀ st ∈ db.stores, ∀ row ∈ st.rows, row.SameUpTo row.kept := by
  refine ⟨fun h st hst row hrow => ?_, fun h => ⟨rfl, rfl, ?_⟩⟩
  · have hstores := h.stores
    rw [DbSnapshot.kept, List.forall₂_map_right_iff, List.forall₂_same] at hstores
    have hrows := (hstores st hst).rows
    rw [StoreSnapshot.kept, List.forall₂_map_right_iff, List.forall₂_same] at hrows
    exact hrows row hrow
  · rw [DbSnapshot.kept, List.forall₂_map_right_iff, List.forall₂_same]
    refine fun st hst => ⟨rfl, rfl, rfl, rfl, ?_⟩
    rw [StoreSnapshot.kept, List.forall₂_map_right_iff, List.forall₂_same]
    exact h st hst

theorem db_read_back {db : DbSnapshot} (h : db.Storable) :
    (∃ db', fromBytes db.toBytes = (some db', true) ∧ db.SameUpTo db') ↔ db.Whole := by
  have hrun := run_running (keeps_readDb db.toBytes.length) db.toBytes
  obtain ⟨hbad, hgood⟩ := run_whole (decodeDb_encodeDb h false)
  by_cases hdeep : ∃ st ∈ db.stores, ∃ row ∈ st.rows, row.TooDeep
  · refine iff_of_false (fun ⟨db', hread, _⟩ => ?_) fun hwhole => ?_
    · have hnone := hbad hdeep
      rw [fromBytes] at hread
      rw [hread] at hnone
      cases hnone
    · obtain ⟨st, hst, row, hrow, htoo⟩ := hdeep
      exact ((row_whole_iff row).mp (hwhole st hst row hrow)).1 htoo
  · have hread : fromBytes db.toBytes = (some db.kept, true) := Prod.ext (hgood hdeep) hrun
    rw [hread]
    simp only [Prod.mk.injEq, Option.some.injEq, and_true, exists_eq_left']
    rw [db_same_kept]
    push Not at hdeep
    refine ⟨fun hsame st hst row hrow => ?_, fun hwhole st hst row hrow => ?_⟩
    · exact (row_whole_iff row).mpr ⟨hdeep st hst row hrow, hsame st hst row hrow⟩
    · exact ((row_whole_iff row).mp (hwhole st hst row hrow)).2

theorem cache_read_back {entries : List (String × Value)} (hlen : entries.length < 2 ^ 32)
    (h : ∀ e ∈ entries, EntryStorable e) :
    CacheSameUpTo entries (decodeCache (encodeCache entries)).1 ↔
      ∀ e ∈ entries, Whole MAX_DEPTH e.2 := by
  obtain ⟨hbad, hgood⟩ := run_whole (readCache_encodeCache hlen h false)
  by_cases hdeep : ∃ e ∈ entries, TooDeep MAX_DEPTH e.2
  · obtain ⟨e, he, htoo⟩ := hdeep
    refine iff_of_false (fun hsame => ?_) fun hwhole => ((whole_iff _ _).mp (hwhole e he)).1 htoo
    rw [decodeCache, hbad ⟨e, he, htoo⟩, Option.getD_none, CacheSameUpTo,
      List.forall₂_nil_right_iff] at hsame
    rw [hsame] at he
    cases he
  · rw [decodeCache, hgood hdeep, Option.getD_some, CacheSameUpTo, List.forall₂_map_right_iff,
      List.forall₂_same]
    push Not at hdeep
    refine ⟨fun hsame e he => ?_, fun hwhole e he => ⟨rfl, ?_⟩⟩
    · exact (whole_iff _ _).mpr ⟨hdeep e he, (hsame e he).2⟩
    · exact ((whole_iff _ _).mp (hwhole e he)).2

/-- A database, and a cache, is read back as it was, but for what lies at the limit, exactly
when nothing does and no property was left out; and no bytes end the program. -/
theorem persisted_read_back (db : DbSnapshot) (entries : List (String × Value))
    (hdb : db.Storable) (hlen : entries.length < 2 ^ 32) (hentries : ∀ e ∈ entries, EntryStorable e) :
    ((∃ db', fromBytes db.toBytes = (some db', true) ∧ db.SameUpTo db') ↔ db.Whole) ∧
    (CacheSameUpTo entries (decodeCache (encodeCache entries)).1 ↔
      ∀ e ∈ entries, Whole MAX_DEPTH e.2) ∧
    ∀ bytes, (fromBytes bytes).2 = true ∧ (decodeCache bytes).2 = true :=
  ⟨db_read_back hdb, cache_read_back hlen hentries, fun bytes =>
    ⟨run_running (keeps_readDb _) bytes, run_running (keeps_readCache _) bytes⟩⟩

def sampleDb : DbSnapshot :=
  ⟨"d", 1, [⟨"s", some "id", true, 5, [⟨.number 1, .array [.string "x", .bool true]⟩]⟩]⟩

def sampleEntries : List (String × Value) :=
  [("u", .object [("status", .number 7), ("tags", .array [.null, .undefined])])]

theorem sampleDb_storable : sampleDb.Storable where
  name := by decide
  count := by decide
  stores := by
    simp only [sampleDb, List.mem_singleton, forall_eq]
    refine ⟨by decide, by decide, by decide, ?_⟩
    simp only [List.mem_singleton, forall_eq]
    refine ⟨.number 1, .array (by decide) ?_⟩
    simp only [List.mem_cons, List.not_mem_nil, or_false, forall_eq_or_imp, forall_eq]
    exact ⟨.string (by decide), .bool true⟩

theorem sampleEntries_storable : ∀ e ∈ sampleEntries, EntryStorable e := by
  simp only [sampleEntries, List.mem_singleton, forall_eq]
  refine ⟨by decide, .object (by decide) (by decide) (by decide) ?_, by decide +kernel⟩
  simp only [List.mem_cons, List.not_mem_nil, or_false, forall_eq_or_imp, forall_eq]
  refine ⟨.number 7, .array (by decide) ?_⟩
  simp only [List.mem_cons, List.not_mem_nil, or_false, forall_eq_or_imp, forall_eq]
  exact ⟨.null, .undefined⟩

theorem persisted_read_back_sample :
    ((∃ db', fromBytes sampleDb.toBytes = (some db', true) ∧ sampleDb.SameUpTo db') ↔
      sampleDb.Whole) ∧
    (CacheSameUpTo sampleEntries (decodeCache (encodeCache sampleEntries)).1 ↔
      ∀ e ∈ sampleEntries, Whole MAX_DEPTH e.2) ∧
    ∀ bytes, (fromBytes bytes).2 = true ∧ (decodeCache bytes).2 = true :=
  persisted_read_back sampleDb sampleEntries sampleDb_storable (by decide) sampleEntries_storable

/-- A value in `n` arrays. -/
def nest : ℕ → Value
  | 0 => .null
  | n + 1 => .array [nest n]

theorem nest_storable (n : ℕ) : Storable (nest n) := by
  induction n with
  | zero => exact .null
  | succ n ih => exact .array (by simp) (by simpa using ih)

theorem nest_tooDeep (n : ℕ) : TooDeep n (nest n) := by
  induction n with
  | zero => trivial
  | succ n ih => exact ⟨_, List.mem_singleton_self _, ih⟩

/-- Two rows, of which the second holds a value in 128 arrays. -/
def deepDb : DbSnapshot :=
  ⟨"d", 1, [⟨"s", none, false, 1, [⟨.number 1, .bool true⟩, ⟨.number 2, nest MAX_DEPTH⟩]⟩]⟩

theorem deepDb_storable : deepDb.Storable where
  name := by decide
  count := by decide
  stores := by
    simp only [deepDb, List.mem_singleton, forall_eq]
    refine ⟨by decide, by simp, by decide, ?_⟩
    simp only [List.mem_cons, List.not_mem_nil, or_false, forall_eq_or_imp, forall_eq]
    exact ⟨⟨.number 1, .bool true⟩, .number 2, nest_storable _⟩

/-- What was cut off at the limit is refused there, and the other row is lost with it. -/
theorem deepDb_lost : deepDb.Storable ∧ fromBytes deepDb.toBytes = (none, true) := by
  have hdeep : ∃ st ∈ deepDb.stores, ∃ row ∈ st.rows, row.TooDeep :=
    ⟨_, List.mem_singleton_self _, _, List.mem_cons_of_mem _ (List.mem_singleton_self _),
      .inr (nest_tooDeep MAX_DEPTH)⟩
  exact ⟨deepDb_storable, Prod.ext ((run_whole (decodeDb_encodeDb deepDb_storable false)).1 hdeep)
    (run_running (keeps_readDb _) _)⟩

end Conclave.Browser.IndexedDb
