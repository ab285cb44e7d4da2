import Conclave.Lib.Cuts
import Conclave.Lib.Decimal
import Conclave.Net.CookieScope

/-! The file of the cookies that outlast the process: one row for each, of fields between
tabs, and what is read of it while the clock stands still. -/

namespace Conclave.Net.Cookies

open Lib

variable {p : Platform} {psl : Psl} {store : CookieStore} {c : StoredCookie} {clock : Clock}
  {t : Text} {exp : ℕ} {clocks : Clock → Prop}

/-! ### Rows -/

def escapeChar : Char → Text
  | '\\' => ['\\', '\\']
  | '\n' => ['\\', 'n']
  | '\t' => ['\\', 't']
  | other => [other]

def escapeField (s : Text) : Text := s.flatMap escapeChar

def unescapeField : Text → Text
  | '\\' :: 'n' :: chars => '\n' :: unescapeField chars
  | '\\' :: 't' :: chars => '\t' :: unescapeField chars
  | '\\' :: '\\' :: chars => '\\' :: unescapeField chars
  | '\\' :: other :: chars => '\\' :: other :: unescapeField chars
  | ['\\'] => ['\\']
  | c :: chars => c :: unescapeField chars
  | [] => []

def sameSiteToStr (s : SameSite) : Text :=
  String.toList <|
    match s with
    | .strict => "Strict"
    | .lax => "Lax"
    | .none => "None"
    | .unset => "Unset"

def sameSiteFromStr (s : Text) : SameSite :=
  if s = "Strict".toList then .strict
  else if s = "Lax".toList then .lax
  else if s = "None".toList then .none
  else .unset

def flag (b : Bool) : Text := if b then "1".toList else "0".toList

/-- The fields of a row but for the last one. -/
def StoredCookie.columns (c : StoredCookie) (exp : ℕ) : List Text :=
  [escapeField c.name, escapeField c.value, escapeField c.domain, flag c.hostOnly,
    escapeField c.path, (toString exp).toList, flag c.secure, flag c.httpOnly,
    sameSiteToStr c.sameSite]

/-- The last field, which is empty for a cookie without a partition. -/
def StoredCookie.keyColumn (c : StoredCookie) : Text := escapeField (c.partitionKey.getD [])

def StoredCookie.row (c : StoredCookie) (exp : ℕ) : Text :=
  ['\t'].intercalate (c.columns exp ++ [c.keyColumn])

def serializeCookie (c : StoredCookie) : Option Text := c.expiresUnix.map c.row

/-- `none` is the panic of an instant that the platform cannot hold. -/
def deserializeCookie (p : Platform) (clock : Clock) (line : Text) : Option (Option StoredCookie) :=
  match line.splitOn '\t' with
  | name :: value :: domain :: hostOnly :: path :: exp :: secure :: httpOnly :: sameSite :: more =>
    match Text.parseUnsigned 64 exp with
    | none => some none
    | some expiresUnix =>
      let partitionKey :=
        match more with
        | s :: _ => if s = [] then none else some (unescapeField s)
        | [] => none
      if unescapeField name = [] then some none
      else if expiresUnix ≤ clock.unixNow then some none
      else
        let expiresAt := clock.instant + (expiresUnix - clock.unixNow : ℕ) * second
        if expiresAt < p.instantLimit then
          some (some ⟨unescapeField name, unescapeField value, unescapeField domain,
            hostOnly == "1".toList, unescapeField path, some expiresAt, some expiresUnix,
            secure == "1".toList, httpOnly == "1".toList, sameSiteFromStr sameSite, partitionKey⟩)
        else none
  | _ => some none

/-! ### The file -/

/-- What `flush_to_disk` writes. -/
def flushed (store : CookieStore) : Text :=
  ((store.filterMap serializeCookie).map (· ++ ['\n'])).flatten

def stripCr (line : Text) : Text := if line.getLast? = some '\r' then line.dropLast else line

/-- Lines end in a newline, with a carriage return before it or none; the last one may be
without. -/
def lines (data : Text) : List Text :=
  let pieces := data.splitOn '\n'
  pieces.dropLast.map stripCr ++ (pieces.getLast?.toList.filter (· ≠ []))

def loadLine (p : Platform) (clock : Clock) (store : CookieStore) (line : Text) :
    Option CookieStore :=
  if line = [] then some store
  else
    (deserializeCookie p clock line).map fun c =>
      match c with
      | some c => upsert store c
      | none => store

/-- What `load_from_disk` makes of the data in an empty jar. -/
def load (p : Platform) (clock : Clock) (data : Text) : Option CookieStore :=
  (lines data).foldlM (loadLine p clock) []

/-! ### A field read back -/

theorem unescape_cons {c : Char} (h : c ≠ '\\') (t : Text) :
    unescapeField (c :: t) = c :: unescapeField t := by
  apply unescapeField.eq_6
  all_goals
    intros
    contradiction

theorem unescape_escapeChar (c : Char) (t : Text) :
    unescapeField (escapeChar c ++ t) = c :: unescapeField t := by
  unfold escapeChar
  split
  · rfl
  · rfl
  · rfl
  · next hslash _ _ => exact unescape_cons hslash t

theorem unescape_escape (t : Text) : unescapeField (escapeField t) = t := by
  induction t with
  | nil => rfl
  | cons c t ih => rw [escapeField, List.flatMap_cons, unescape_escapeChar, ← escapeField, ih]

theorem mem_escapeChar {c d : Char} (h : d ∈ escapeChar c) : d ≠ '\t' ∧ d ≠ '\n' := by
  unfold escapeChar at h
  split at h
  · exact (by simp : ∀ d ∈ ['\\', '\\'], d ≠ '\t' ∧ d ≠ '\n') d h
  · exact (by simp : ∀ d ∈ ['\\', 'n'], d ≠ '\t' ∧ d ≠ '\n') d h
  · exact (by simp : ∀ d ∈ ['\\', 't'], d ≠ '\t' ∧ d ≠ '\n') d h
  · next hnewline htab =>
    rw [List.mem_singleton.mp h]
    exact ⟨htab, hnewline⟩

theorem mem_escapeField {d : Char} (h : d ∈ escapeField t) : d ≠ '\t' ∧ d ≠ '\n' := by
  obtain ⟨c, -, hd⟩ := List.mem_flatMap.mp h
  exact mem_escapeChar hd

theorem escapeField_eq_nil : escapeField t = [] ↔ t = [] := by
  constructor
  · intro h
    have hread := unescape_escape t
    rw [h] at hread
    exact hread.symm
  · rintro rfl
    rfl

theorem stripCr_concat (t : Text) : stripCr (t ++ ['\r']) = t := by
  rw [stripCr, if_pos (by simp), List.dropLast_concat]

theorem stripCr_of_ne (h : t.getLast? ≠ some '\r') : stripCr t = t := if_neg h

/-- A carriage return is not escaped, and so it is stripped from the field as from the text. -/
theorem stripCr_escape (t : Text) : stripCr (escapeField t) = escapeField (stripCr t) := by
  rcases List.eq_nil_or_concat t with rfl | ⟨front, c, rfl⟩
  · rfl
  have hlast : escapeField (front.concat c) = escapeField front ++ escapeChar c := by
    rw [List.concat_eq_append, escapeField, List.flatMap_append, List.flatMap_singleton, escapeField]
  by_cases hc : c = '\r'
  · subst hc
    rw [hlast, show escapeChar '\r' = ['\r'] from rfl, stripCr_concat, List.concat_eq_append,
      stripCr_concat]
  · have hchar : (escapeChar c).getLast? ≠ some '\r' := by
      intro h
      have hmem := List.mem_of_getLast? h
      unfold escapeChar at hmem
      split at hmem
      · exact absurd hmem (by decide)
      · exact absurd hmem (by decide)
      · exact absurd hmem (by decide)
      · exact hc (List.mem_singleton.mp hmem).symm
    have hne : escapeChar c ≠ [] := by
      unfold escapeChar
      split <;> simp
    rw [stripCr_of_ne, stripCr_of_ne]
    · simpa using hc
    · rwa [hlast, List.getLast?_append_of_ne_nil _ hne]

theorem sameSite_read (s : SameSite) : sameSiteFromStr (sameSiteToStr s) = s := by
  cases s <;> decide

theorem flag_read (b : Bool) : (flag b == "1".toList) = b := by
  cases b <;> decide

/-! ### A row read back -/

/-- No column has the characters between columns and rows. -/
theorem column_plain {col : Text} (h : col ∈ c.columns exp ++ [c.keyColumn]) {d : Char}
    (hd : d ∈ col) : d ≠ '\t' ∧ d ≠ '\n' := by
  have hflag : ∀ b, ∀ d ∈ flag b, d ≠ '\t' ∧ d ≠ '\n' := by
    intro b
    cases b <;> simp [flag]
  have hnumber : ∀ d ∈ (toString exp).toList, d ≠ '\t' ∧ d ≠ '\n' := by
    intro d hd
    have hdigit := Text.isDigit_of_mem_repr hd
    constructor <;> rintro rfl <;> simp at hdigit
  have hsite : ∀ s, ∀ d ∈ sameSiteToStr s, d ≠ '\t' ∧ d ≠ '\n' := by
    intro s
    unfold sameSiteToStr
    cases s <;> simp
  simp only [StoredCookie.columns, StoredCookie.keyColumn, List.cons_append, List.nil_append,
    List.mem_cons, List.not_mem_nil, or_false] at h
  rcases h with rfl | rfl | rfl | rfl | rfl | rfl | rfl | rfl | rfl | rfl
  · exact mem_escapeField hd
  · exact mem_escapeField hd
  · exact mem_escapeField hd
  · exact hflag _ d hd
  · exact mem_escapeField hd
  · exact hnumber d hd
  · exact hflag _ d hd
  · exact hflag _ d hd
  · exact hsite _ d hd
  · exact mem_escapeField hd

theorem newline_not_mem_row : '\n' ∉ c.row exp := by
  intro h
  rcases mem_or_of_mem_intercalate h with htab | ⟨col, hcol, hd⟩
  · simp at htab
  · exact (column_plain hcol hd).2 rfl

theorem stripCr_append_tab (front t : Text) :
    stripCr (front ++ '\t' :: t) = front ++ '\t' :: stripCr t := by
  rcases List.eq_nil_or_concat t with rfl | ⟨t, d, rfl⟩
  · rw [stripCr_of_ne (by simp), stripCr_of_ne (by simp)]
  have hassoc : front ++ '\t' :: (t.concat d) = (front ++ '\t' :: t) ++ [d] := by simp
  rw [hassoc, List.concat_eq_append]
  by_cases hd : d = '\r'
  · subst hd
    rw [stripCr_concat, stripCr_concat]
  · rw [stripCr_of_ne (by rw [List.getLast?_concat]; simpa using hd),
      stripCr_of_ne (by rw [List.getLast?_concat]; simpa using hd), List.append_assoc,
      List.cons_append]

/-- What a line gives that is the row of a cookie, but for a carriage return at its end. -/
theorem splitOn_row : (stripCr (c.row exp)).splitOn '\t' =
    c.columns exp ++ [escapeField (stripCr (c.partitionKey.getD []))] := by
  rw [StoredCookie.row, intercalate_concat (by simp [StoredCookie.columns]), stripCr_append_tab,
    StoredCookie.keyColumn, stripCr_escape, ← intercalate_concat (by simp [StoredCookie.columns])]
  apply List.splitOn_intercalate
  · intro col hcol htab
    rcases List.mem_append.mp hcol with hcol | hcol
    · exact (column_plain (List.mem_append_left _ hcol) htab).1 rfl
    · rw [List.mem_singleton.mp hcol] at htab
      exact (mem_escapeField htab).1 rfl
  · simp

/-- The key that is read for a partition: none for one of no characters, and none but a
carriage return. -/
def keyRead (key : Option Text) : Option Text :=
  if stripCr (key.getD []) = [] then none else some (stripCr (key.getD []))

def reloadedAt (clock : Clock) (exp : ℕ) : ℤ := clock.instant + (exp - clock.unixNow : ℕ) * second

/-- A row that is read is the cookie but for its key and the instant of its expiry. -/
theorem deserialize_row (hname : c.name ≠ []) (hexp : exp < 2 ^ 64) :
    deserializeCookie p clock (stripCr (c.row exp)) =
      if exp ≤ clock.unixNow then some none
      else if reloadedAt clock exp < p.instantLimit then
        some (some { c with
          expiresAt := some (reloadedAt clock exp)
          expiresUnix := some exp
          partitionKey := keyRead c.partitionKey })
      else none := by
  unfold deserializeCookie
  rw [splitOn_row]
  simp only [StoredCookie.columns, List.cons_append, List.nil_append, Text.parseUnsigned_repr hexp,
    unescape_escape, hname, if_false, escapeField_eq_nil, flag_read, sameSite_read]
  rfl

/-! ### The file read back -/

/-- The cookies that are not gone with the process. -/
def persistent (store : CookieStore) : List StoredCookie := store.filter (·.expiresUnix.isSome)

theorem lines_terminated {rows : List Text} (h : ∀ row ∈ rows, '\n' ∉ row) :
    lines (rows.map (· ++ ['\n'])).flatten = rows.map stripCr := by
  have hdata : (rows.map (· ++ ['\n'])).flatten = ['\n'].intercalate (rows ++ [[]]) := by
    clear h
    induction rows with
    | nil => rfl
    | cons row rows ih =>
      rw [List.map_cons, List.flatten_cons, ih, List.cons_append,
        List.intercalate_cons_of_ne_nil (by simp)]
  have hpieces : (['\n'].intercalate (rows ++ [[]])).splitOn '\n' = rows ++ [[]] := by
    apply List.splitOn_intercalate
    · intro row hrow
      rcases List.mem_append.mp hrow with hrow | hrow
      · exact h row hrow
      · rw [List.mem_singleton.mp hrow]
        exact List.not_mem_nil
    · simp
  rw [lines, hdata, hpieces, List.dropLast_concat, List.getLast?_concat]
  simp

theorem load_flushed (store : CookieStore) :
    load p clock (flushed store) =
      ((store.filterMap serializeCookie).map stripCr).foldlM (loadLine p clock) [] := by
  rw [load, flushed, lines_terminated]
  intro row hrow
  obtain ⟨c, -, hc⟩ := List.mem_filterMap.mp hrow
  obtain ⟨exp, -, rfl⟩ := Option.map_eq_some_iff.mp hc
  exact newline_not_mem_row

theorem loadLine_row (loaded : CookieStore) :
    loadLine p clock loaded (stripCr (c.row exp)) =
      (deserializeCookie p clock (stripCr (c.row exp))).map fun c =>
        match c with
        | some c => upsert loaded c
        | none => loaded := by
  rw [loadLine, if_neg]
  intro hempty
  have hsplit := @splitOn_row c exp
  rw [hempty] at hsplit
  exact absurd (congrArg List.length hsplit) nofun

/-- The two times of expiry of a cookie of this clock: the instant is in the second, unless
that has begun. -/
def Dated (clock : Clock) (c : StoredCookie) : Prop :=
  ∀ t exp, c.expiresAt = some t → c.expiresUnix = some exp → clock.unixNow < exp →
    0 ≤ t - clock.instant + clock.system - exp * second ∧
      t - clock.instant + clock.system - exp * second < second

/-- What a header that is read at one of these clocks stores: a cookie with a name, that has
times of expiry by both clocks or by none. -/
structure Storable (clocks : Clock → Prop) (c : StoredCookie) : Prop where
  name : c.name ≠ []
  expires : ∀ exp, c.expiresUnix = some exp → exp < 2 ^ 64
  lockstep : c.expiresAt = none ↔ c.expiresUnix = none
  dated : ∃ clock, clocks clock ∧ (0 ≤ clock.system → Dated clock c)

/-- The time of expiry is in a later second, and the platform has the instant; the partition
has a key of some characters, and no carriage return ends it. -/
structure Readable (p : Platform) (clock : Clock) (c : StoredCookie) : Prop where
  live : ∀ exp, c.expiresUnix = some exp →
    clock.unixNow < exp ∧ reloadedAt clock exp < p.instantLimit
  key : ∀ key, c.partitionKey = some key → key ≠ [] ∧ key.getLast? ≠ some '\r'

def reloaded (clock : Clock) (c : StoredCookie) : StoredCookie :=
  { c with expiresAt := c.expiresUnix.map (reloadedAt clock) }

theorem keyRead_eq {key : Option Text} :
    keyRead key = key ↔ ∀ k, key = some k → k ≠ [] ∧ k.getLast? ≠ some '\r' := by
  cases key with
  | none => simp [keyRead, stripCr]
  | some k =>
    simp only [keyRead, Option.getD_some, Option.some.injEq, forall_eq']
    by_cases hcr : k.getLast? = some '\r'
    · obtain ⟨front, rfl⟩ := List.getLast?_eq_some_iff.mp hcr
      rw [stripCr_concat]
      constructor
      · intro h
        split_ifs at h
        simp at h
      · exact fun h => absurd hcr h.2
    · rw [stripCr_of_ne hcr]
      constructor
      · intro h
        split_ifs at h with hempty
        exact ⟨hempty, hcr⟩
      · exact fun h => if_neg h.1

theorem deserialize_readable (hs : Storable clocks c) (hr : Readable p clock c)
    (hexp : c.expiresUnix = some exp) :
    deserializeCookie p clock (stripCr (c.row exp)) = some (some (reloaded clock c)) := by
  obtain ⟨hlive, hfits⟩ := hr.live exp hexp
  rw [deserialize_row hs.name (hs.expires exp hexp), if_neg (not_le.mpr hlive), if_pos hfits,
    keyRead_eq.mpr hr.key, reloaded, hexp, Option.map_some]

/-- Only a cookie that is readable is read with its key. -/
theorem readable_of_deserialize {d : StoredCookie} (hs : Storable clocks c)
    (hexp : c.expiresUnix = some exp) (hkey : d.partitionKey = c.partitionKey)
    (h : deserializeCookie p clock (stripCr (c.row exp)) = some (some d)) : Readable p clock c := by
  rw [deserialize_row hs.name (hs.expires exp hexp)] at h
  split_ifs at h with hpast hfits
  · exact absurd (Option.some.inj h) nofun
  · obtain rfl := Option.some.inj (Option.some.inj h)
    refine ⟨fun exp' hexp' => ?_, keyRead_eq.mp hkey⟩
    obtain rfl := Option.some.inj (hexp.symm.trans hexp')
    exact ⟨not_le.mp hpast, hfits⟩

theorem upsert_of_new (h : ∀ e ∈ store, e.identity ≠ c.identity) : upsert store c = store ++ [c] := by
  rcases upsert_cases store c with ⟨i, hlt, hid, -⟩ | ⟨-, heq⟩
  · exact absurd hid (h _ (List.getElem_mem hlt))
  · exact heq

/-- The rows of cookies that are readable give them back, after what was read before. -/
theorem foldl_readable {cs loaded : CookieStore} (hs : ∀ c ∈ cs, Storable clocks c)
    (hr : ∀ c ∈ persistent cs, Readable p clock c)
    (hnodup : ((loaded ++ persistent cs).map StoredCookie.identity).Nodup) :
    ((cs.filterMap serializeCookie).map stripCr).foldlM (loadLine p clock) loaded =
      some (loaded ++ (persistent cs).map (reloaded clock)) := by
  induction cs generalizing loaded with
  | nil => simp [persistent]
  | cons c cs ih =>
    have hrest := fun e he => hs e (List.mem_cons_of_mem c he)
    cases hexp : c.expiresUnix with
    | none =>
      have hskip : persistent (c :: cs) = persistent cs := by simp [persistent, hexp]
      rw [hskip] at hr hnodup ⊢
      rw [List.filterMap_cons_none (by rw [serializeCookie, hexp, Option.map_none])]
      exact ih hrest hr hnodup
    | some exp =>
      have hkeep : persistent (c :: cs) = c :: persistent cs := by simp [persistent, hexp]
      rw [hkeep] at hr hnodup ⊢
      rw [List.filterMap_cons_some (by rw [serializeCookie, hexp, Option.map_some]), List.map_cons,
        List.foldlM_cons, loadLine_row,
        deserialize_readable (hs c List.mem_cons_self) (hr c List.mem_cons_self) hexp]
      have hnew : ∀ e ∈ loaded, e.identity ≠ (reloaded clock c).identity := by
        intro e he heq
        rw [List.map_append, List.nodup_append] at hnodup
        exact hnodup.2.2 _ (List.mem_map_of_mem he) _ (List.mem_map_of_mem List.mem_cons_self) heq
      show ((cs.filterMap serializeCookie).map stripCr).foldlM (loadLine p clock)
        (upsert loaded (reloaded clock c)) = _
      rw [upsert_of_new hnew, ih hrest (fun e he => hr e (List.mem_cons_of_mem c he)),
        List.append_assoc, List.map_cons, List.singleton_append]
      simpa [reloaded, StoredCookie.identity] using hnodup

/-- No more cookies are read than there are rows, and when there are as many, each row gave
the one in its place. -/
theorem foldl_length {cs loaded store : CookieStore}
    (h : ((cs.filterMap serializeCookie).map stripCr).foldlM (loadLine p clock) loaded = some store) :
    store.length ≤ loaded.length + (persistent cs).length ∧
      (store.length = loaded.length + (persistent cs).length →
        ∃ ds, store = loaded ++ ds ∧ List.Forall₂ (fun c d => ∀ exp, c.expiresUnix = some exp →
          deserializeCookie p clock (stripCr (c.row exp)) = some (some d)) (persistent cs) ds) := by
  induction cs generalizing loaded with
  | nil =>
    obtain rfl := Option.some.inj h
    exact ⟨by simp [persistent], fun _ => ⟨[], (List.append_nil _).symm, .nil⟩⟩
  | cons c cs ih =>
    cases hexp : c.expiresUnix with
    | none =>
      have hskip : persistent (c :: cs) = persistent cs := by simp [persistent, hexp]
      rw [List.filterMap_cons_none (by rw [serializeCookie, hexp, Option.map_none])] at h
      rw [hskip]
      exact ih h
    | some exp =>
      have hkeep : persistent (c :: cs) = c :: persistent cs := by simp [persistent, hexp]
      rw [List.filterMap_cons_some (by rw [serializeCookie, hexp, Option.map_some]), List.map_cons,
        List.foldlM_cons, loadLine_row] at h
      rw [hkeep, List.length_cons]
      cases hread : deserializeCookie p clock (stripCr (c.row exp)) with
      | none =>
        rw [hread] at h
        exact absurd h nofun
      | some d =>
        rw [hread] at h
        cases d with
        | none =>
          have hle : store.length ≤ loaded.length + (persistent cs).length := (ih h).1
          exact ⟨by omega, fun heq => by omega⟩
        | some d =>
          have hrest : store.length ≤ (upsert loaded d).length + (persistent cs).length ∧ _ := ih h
          obtain ⟨hle, hall⟩ := hrest
          rcases upsert_cases loaded d with ⟨i, hlt, -, hupsert⟩ | ⟨-, hupsert⟩
          · rw [hupsert, List.length_set] at hle
            exact ⟨by omega, fun heq => by omega⟩
          · rw [hupsert, List.length_append, List.length_singleton] at hle
            refine ⟨by omega, fun heq => ?_⟩
            obtain ⟨ds, hds, hpairs⟩ := hall (by
              show store.length = (upsert loaded d).length + (persistent cs).length
              rw [hupsert, List.length_append, List.length_singleton]
              omega)
            refine ⟨d :: ds, ?_, .cons (fun exp' hexp' => ?_) hpairs⟩
            · rw [hds]
              show upsert loaded d ++ ds = _
              rw [hupsert, List.append_assoc, List.singleton_append]
            · obtain rfl := Option.some.inj (hexp.symm.trans hexp')
              exact hread

/-! ### What is stored -/

/-- The attributes that headers have: an age of 64 bits, and a date in seconds that the
platform has. -/
structure Attributes.Bounded (p : Platform) (a : Attributes) : Prop where
  maxAge : ∀ n, a.maxAge = some n → n < 2 ^ 63
  expires : ∀ t, a.expires = some t → t < p.systemLimit ∧ ∃ secs : ℤ, t = secs * second

theorem parseSigned_lt {n : ℤ} (h : parseSigned 64 t = some n) : n < 2 ^ 63 := by
  unfold parseSigned at h
  split at h
  · split_ifs at h
    split at h
    · split_ifs at h
      have := Option.some.inj h
      omega
    · exact absurd h nofun
  · split at h
    · split_ifs at h with hlt
      have := Option.some.inj h
      omega
    · exact absurd h nofun

theorem firstDate_bounded {dates : List (Option (Option Civil))} {t : ℤ}
    (h : firstDate p dates = some (some t)) :
    t < p.systemLimit ∧ ∃ secs : ℤ, t = secs * second := by
  induction dates with
  | nil => exact absurd (Option.some.inj h).symm (Option.some_ne_none t)
  | cons d dates ih =>
    obtain _ | _ | d := d
    · cases h
    · exact ih h
    · unfold firstDate Civil.toSystemTime at h
      by_cases hvalid : d.valid
      · by_cases hrange : d.inRange p
        · rw [if_neg (not_not.mpr hvalid), if_pos hrange] at h
          obtain rfl := Option.some.inj (Option.some.inj h)
          simp only [Civil.inRange, Bool.and_eq_true, decide_eq_true_eq] at hrange
          exact ⟨hrange.2, d.totalSecs, rfl⟩
        · rw [if_neg (not_not.mpr hvalid), if_neg hrange] at h
          cases h
      · rw [if_pos hvalid] at h
        exact ih h

variable {a a' : Attributes}

theorem Attributes.Bounded.congr (h : a.Bounded p) (hage : a'.maxAge = a.maxAge)
    (hdate : a'.expires = a.expires) : a'.Bounded p :=
  ⟨fun n hn => h.maxAge n (hage ▸ hn), fun t ht => h.expires t (hdate ▸ ht)⟩

theorem Attributes.Bounded.withMaxAge (h : a.Bounded p) (v : Option Text) :
    (a.withMaxAge v).Bounded p := by
  unfold Attributes.withMaxAge
  split
  · split
    · next n hn => exact ⟨fun m hm => Option.some.inj hm ▸ parseSigned_lt hn, h.expires⟩
    · exact h
  · exact h

theorem Attributes.Bounded.withExpires (h : a.Bounded p) {v : Option Text}
    (hread : a.withExpires p v = some a') : a'.Bounded p := by
  unfold Attributes.withExpires at hread
  split at hread
  · obtain ⟨t, ht, rfl⟩ := Option.map_eq_some_iff.mp hread
    cases t with
    | none => exact h
    | some t => exact ⟨h.maxAge, fun t' ht' => Option.some.inj ht' ▸ firstDate_bounded ht⟩
  · exact Option.some.inj hread ▸ h

theorem Attributes.Bounded.read {attr : Text} (h : a.Bounded p) (hread : a.read p attr = some a') :
    a'.Bounded p := by
  unfold Attributes.read at hread
  split_ifs at hread with hempty
  · exact Option.some.inj hread ▸ h
  cases hkeyed : Attributes.keyed attr with
  | mk k v =>
    rw [hkeyed] at hread
    dsimp only at hread
    split_ifs at hread
    · obtain rfl := Option.some.inj hread
      unfold Attributes.withDomain
      split
      · dsimp only
        split_ifs
        · exact h
        · exact h.congr rfl rfl
      · exact h
    · obtain rfl := Option.some.inj hread
      unfold Attributes.withPath
      split
      · split_ifs
        · exact h.congr rfl rfl
        · exact h
      · exact h
    · exact Option.some.inj hread ▸ h.withMaxAge v
    · exact h.withExpires hread
    · exact Option.some.inj hread ▸ h.congr rfl rfl
    · exact Option.some.inj hread ▸ h.congr rfl rfl
    · exact Option.some.inj hread ▸ h.congr rfl rfl
    · obtain rfl := Option.some.inj hread
      unfold Attributes.withSameSite
      split
      · exact h.congr rfl rfl
      · exact h
    · exact Option.some.inj hread ▸ h

theorem Attributes.Bounded.readAll {parts : List Text} (h : a.Bounded p)
    (hread : parts.foldlM (Attributes.read p) a = some a') : a'.Bounded p := by
  induction parts generalizing a with
  | nil => exact Option.some.inj hread ▸ h
  | cons attr parts ih =>
    rw [List.foldlM_cons] at hread
    obtain ⟨a₁, h₁, hrest⟩ := Option.bind_eq_some_iff.mp hread
    exact ih (h.read h₁) hrest

/-- The times of attributes that are bounded. -/
theorem expiryTimes_spec {t : ℤ} (h : a.Bounded p) (hp : p.systemLimit ≤ 2 ^ 63 * second)
    (hclock : clock.system < p.systemLimit) (htimes : a.expiryTimes clock = some (t, exp)) :
    exp < 2 ^ 64 ∧ (0 ≤ clock.system → clock.unixNow < exp →
      0 ≤ t - clock.instant + clock.system - exp * second ∧
        t - clock.instant + clock.system - exp * second < second) := by
  have hnow : clock.unixNow < 2 ^ 63 := by
    unfold Clock.unixNow second at *
    omega
  have hfloor : 0 ≤ clock.system → (clock.unixNow : ℤ) = clock.system / second := by
    unfold Clock.unixNow second
    omega
  unfold Attributes.expiryTimes at htimes
  cases hage : a.maxAge with
  | some n =>
    have hn := h.maxAge n hage
    rw [hage] at htimes
    dsimp only at htimes
    split_ifs at htimes with hpos
    · obtain ⟨rfl, rfl⟩ := Prod.mk.inj (Option.some.inj htimes)
      exact ⟨by omega, fun _ hlt => by omega⟩
    · obtain ⟨rfl, rfl⟩ := Prod.mk.inj (Option.some.inj htimes)
      refine ⟨by omega, fun hsystem _ => ?_⟩
      have hmin : min (clock.unixNow + n.toNat) (2 ^ 64 - 1) = clock.unixNow + n.toNat := by omega
      have hcast : ((clock.unixNow + n.toNat : ℕ) : ℤ) = clock.system / second + n := by
        rw [Nat.cast_add, hfloor hsystem, Int.toNat_of_nonneg (by omega)]
      rw [hmin, hcast]
      unfold second
      omega
  | none =>
    rw [hage] at htimes
    cases hdate : a.expires with
    | none =>
      rw [hdate] at htimes
      exact absurd htimes nofun
    | some target =>
      obtain ⟨hlimit, secs, hsecs⟩ := h.expires target hdate
      rw [hdate] at htimes
      dsimp only at htimes
      have htarget : target / second = secs := by
        unfold second at *
        omega
      have hsecond : 0 < second := by decide
      have hsecs' : secs < 2 ^ 63 := by
        unfold second at *
        omega
      rw [htarget] at htimes
      split_ifs at htimes with hfuture
      · obtain ⟨rfl, rfl⟩ := Prod.mk.inj (Option.some.inj htimes)
        refine ⟨by omega, fun _ hlt => ?_⟩
        rw [Int.toNat_of_nonneg (by omega), hsecs]
        omega
      · obtain ⟨rfl, rfl⟩ := Prod.mk.inj (Option.some.inj htimes)
        exact ⟨by omega, fun _ hlt => by omega⟩

theorem nameValue_ne {value name val : Text} {parts : List Text}
    (h : nameValue value = some (name, val, parts)) : name ≠ [] := by
  unfold nameValue at h
  split at h
  · exact absurd h nofun
  · split at h
    · exact absurd h nofun
    · split_ifs at h with hempty
      obtain ⟨rfl, -⟩ := Prod.mk.inj (Option.some.inj h)
      exact hempty

theorem accept_name {o : Origin} {name val : Text} (h : a.accept psl o name val = some c) :
    c.name = name := by
  unfold Attributes.accept at h
  split at h
  · exact absurd h nofun
  · dsimp only at h
    split_ifs at h
    all_goals
      obtain rfl := Option.some.inj h
      rfl

theorem parse_storable {value : Text} {o : Origin} (hp : p.systemLimit ≤ 2 ^ 63 * second)
    (hclock : clock.system < p.systemLimit) (hstamped : clocks clock)
    (h : parseSetCookiePartitioned p psl clock value o = some (some c)) : Storable clocks c := by
  unfold parseSetCookiePartitioned at h
  cases hname : nameValue value with
  | none =>
    rw [hname] at h
    exact absurd (Option.some.inj h) nofun
  | some parsed =>
    obtain ⟨name, val, parts⟩ := parsed
    rw [hname] at h
    dsimp only at h
    cases hread : Attributes.readAll p parts with
    | none =>
      rw [hread] at h
      exact absurd h nofun
    | some a =>
      rw [hread] at h
      dsimp only at h
      cases haccept : a.accept psl o name val with
      | none =>
        rw [haccept] at h
        exact absurd (Option.some.inj h) nofun
      | some c₀ =>
        rw [haccept] at h
        dsimp only at h
        split_ifs at h with hfits
        obtain rfl := Option.some.inj (Option.some.inj h)
        have hnew : Attributes.new.Bounded p := ⟨nofun, nofun⟩
        have hbounded := hnew.readAll hread
        have hc : c₀.name ≠ [] := accept_name haccept ▸ nameValue_ne hname
        cases htimes : a.expiryTimes clock with
        | none => exact ⟨hc, nofun, ⟨fun _ => rfl, fun _ => rfl⟩, clock, hstamped, nofun⟩
        | some times =>
          obtain ⟨t, exp⟩ := times
          obtain ⟨hlt, hdated⟩ := expiryTimes_spec hbounded hp hclock htimes
          refine ⟨hc, fun exp' hexp' => Option.some.inj hexp' ▸ hlt, ⟨nofun, nofun⟩, clock, hstamped,
            fun hsystem t' exp' ht' hexp' => ?_⟩
          obtain rfl := Option.some.inj ht'
          obtain rfl := Option.some.inj hexp'
          exact hdated hsystem

/-- Each identity once, and cookies that headers store. -/
structure Stored (clocks : Clock → Prop) (store : CookieStore) : Prop where
  nodup : (store.map StoredCookie.identity).Nodup
  storable : ∀ c ∈ store, Storable clocks c

theorem Stored.sweep (h : Stored clocks store) (now : ℤ) : Stored clocks (sweepExpired now store) :=
  ⟨h.nodup.sublist (List.filter_sublist.map _), fun c hc => h.storable c (List.mem_of_mem_filter hc)⟩

theorem Stored.upsert (h : Stored clocks store) (hc : Storable clocks c) :
    Stored clocks (upsert store c) :=
  ⟨nodup_upsert h.nodup c, fun e he => (mem_upsert he).elim (h.storable e) fun heq => heq ▸ hc⟩

/-- The clocks at which the headers of an act are read. -/
def Act.Reads (act : Act) (clock : Clock) : Prop :=
  ∃ r, act = .absorb r ∧ ∃ header ∈ r.headers, header.2.2 = clock

theorem Stored.absorb {o : Origin} {headers : List (Text × Text × Clock)} {store' : CookieStore}
    (h : Stored clocks store) (hp : p.systemLimit ≤ 2 ^ 63 * second)
    (hclocks : ∀ header ∈ headers, header.2.2.system < p.systemLimit ∧ clocks header.2.2)
    (hrun : headers.foldlM (absorbHeader p psl o) store = some store') : Stored clocks store' := by
  induction headers generalizing store with
  | nil => exact Option.some.inj hrun ▸ h
  | cons header headers ih =>
    rw [List.foldlM_cons] at hrun
    obtain ⟨store₁, hheader, hrest⟩ := Option.bind_eq_some_iff.mp hrun
    refine ih ?_ (fun header hheader => hclocks header (List.mem_cons_of_mem _ hheader)) hrest
    unfold absorbHeader at hheader
    split_ifs at hheader with hset
    · obtain ⟨c, hparse, rfl⟩ := Option.map_eq_some_iff.mp hheader
      cases c with
      | none => exact h
      | some c =>
        obtain ⟨hclock, hstamped⟩ := hclocks header List.mem_cons_self
        exact h.upsert (parse_storable hp hclock hstamped hparse)
    · exact Option.some.inj hheader ▸ h

theorem stored_step {act : Act} {store' : CookieStore} (h : Stored clocks store)
    (hp : p.systemLimit ≤ 2 ^ 63 * second)
    (hclocks : ∀ clock, act.Reads clock → clock.system < p.systemLimit ∧ clocks clock)
    (hstep : step p psl store act = some store') : Stored clocks store' := by
  cases act with
  | absorb r =>
    obtain ⟨store₁, hrun, rfl⟩ := Option.map_eq_some_iff.mp hstep
    exact (h.absorb hp (fun header hheader => hclocks _ ⟨r, rfl, header, hheader, rfl⟩) hrun).sweep _
  | sweep now => exact Option.some.inj hstep ▸ h.sweep now
  | clear => exact Option.some.inj hstep ▸ ⟨List.nodup_nil, nofun⟩

theorem stored_runs {acts : List Act} {store' : CookieStore} (h : Stored clocks store)
    (hp : p.systemLimit ≤ 2 ^ 63 * second)
    (hclocks : ∀ act ∈ acts, ∀ clock, act.Reads clock →
      clock.system < p.systemLimit ∧ clocks clock)
    (hrun : runs (step p psl) store acts = some store') : Stored clocks store' := by
  induction acts generalizing store with
  | nil => exact Option.some.inj hrun ▸ h
  | cons act acts ih =>
    obtain ⟨store₁, hstep, hrest⟩ := runs_cons hrun
    exact ih (stored_step h hp (hclocks act List.mem_cons_self) hstep)
      (fun act hact => hclocks act (List.mem_cons_of_mem _ hact)) hrest

/-! ### The round trip -/

/-- The two clocks run alike, from the epoch on, and the file is read after the headers. -/
def Steady (acts : List Act) (clock : Clock) : Prop :=
  ∀ act ∈ acts, ∀ clock₀, act.Reads clock₀ → 0 ≤ clock₀.system ∧ clock₀.system ≤ clock.system ∧
    clock₀.instant - clock₀.system = clock.instant - clock.system

/-- The same cookie, whose instant of expiry is the same to the second. -/
structure Same (steady : Prop) (c c' : StoredCookie) : Prop where
  fields : c' = { c with expiresAt := c'.expiresAt }
  instant : steady → ∃ t t', c.expiresAt = some t ∧ c'.expiresAt = some t' ∧ |t' - t| < second

/-- What is read of the file are the persistent cookies, in their order. -/
def RoundTrips (p : Platform) (steady : Prop) (clock : Clock) (store : CookieStore) : Prop :=
  ∃ loaded, load p clock (flushed store) = some loaded ∧
    List.Forall₂ (Same steady) (persistent store) loaded

theorem same_reloaded {acts : List Act}
    (hs : Storable (fun clock => ∃ act ∈ acts, act.Reads clock) c) (hr : Readable p clock c)
    (hexp : c.expiresUnix = some exp) : Same (Steady acts clock) c (reloaded clock c) := by
  refine ⟨rfl, fun hsteady => ?_⟩
  obtain ⟨clock₀, ⟨act, hact, hreads⟩, hdated⟩ := hs.dated
  obtain ⟨hepoch, hle, hdrift⟩ := hsteady act hact clock₀ hreads
  obtain ⟨hlive, -⟩ := hr.live exp hexp
  cases hat : c.expiresAt with
  | none => exact absurd (hexp.symm.trans (hs.lockstep.mp hat)) nofun
  | some t =>
    refine ⟨t, reloadedAt clock exp, rfl, by rw [reloaded, hexp, Option.map_some], ?_⟩
    have hearlier : clock₀.unixNow ≤ clock.unixNow := by
      unfold Clock.unixNow second
      omega
    obtain ⟨hlo, hhi⟩ := hdated hepoch t exp hat hexp (hearlier.trans_lt hlive)
    have hnow : (clock.unixNow : ℤ) = clock.system / second := by
      unfold Clock.unixNow second
      omega
    rw [reloadedAt, Nat.cast_sub hlive.le, hnow, abs_lt]
    unfold second at *
    omega

/-- What a jar writes is read back exactly when its persistent cookies are readable, and
session cookies are not written. -/
theorem persistence_round_trip {p : Platform} {psl : Psl} {acts : List Act} {store : CookieStore}
    (hp : p.systemLimit ≤ 2 ^ 63 * second)
    (hclocks : ∀ act ∈ acts, ∀ clock, act.Reads clock → clock.system < p.systemLimit)
    (hrun : runs (step p psl) [] acts = some store) (clock : Clock) :
    (RoundTrips p (Steady acts clock) clock store ↔
      ∀ c ∈ persistent store, Readable p clock c) ∧
      ∀ c ∈ store, serializeCookie c = none ↔ c.expiresAt = none := by
  have hempty : Stored (fun clock => ∃ act ∈ acts, act.Reads clock) [] := ⟨List.nodup_nil, nofun⟩
  have hstored := stored_runs hempty hp (fun act hact clock hreads =>
    ⟨hclocks act hact clock hreads, act, hact, hreads⟩) hrun
  have hsub : ∀ c ∈ persistent store, c ∈ store ∧ ∃ exp, c.expiresUnix = some exp := fun c hc =>
    ⟨List.mem_of_mem_filter hc, Option.isSome_iff_exists.mp (List.mem_filter.mp hc).2⟩
  refine ⟨⟨?_, fun hread => ?_⟩, fun c hc => ?_⟩
  · rintro ⟨loaded, hload, hsame⟩ c hc
    rw [load_flushed] at hload
    have hlength := hsame.length_eq
    obtain ⟨ds, hds, hpairs⟩ := (foldl_length hload).2 (by simpa using hlength.symm)
    rw [List.nil_append] at hds
    rw [hds] at hsame
    obtain ⟨i, hi, rfl⟩ := List.getElem_of_mem hc
    have hi' : i < ds.length := hds ▸ hlength ▸ hi
    have hsame' := (List.forall₂_iff_get.mp hsame).2 i hi hi'
    have hpair := (List.forall₂_iff_get.mp hpairs).2 i hi hi'
    obtain ⟨hmem, exp, hexp⟩ := hsub _ hc
    have hkey := congrArg StoredCookie.partitionKey hsame'.fields
    exact readable_of_deserialize (hstored.storable _ hmem) hexp hkey (hpair exp hexp)
  · refine ⟨(persistent store).map (reloaded clock), ?_,
      List.forall₂_map_right_iff.mpr (List.forall₂_same.mpr fun c hc => ?_)⟩
    · rw [load_flushed, foldl_readable hstored.storable hread, List.nil_append]
      exact hstored.nodup.sublist (List.filter_sublist.map _)
    · obtain ⟨hmem, exp, hexp⟩ := hsub c hc
      exact same_reloaded (hstored.storable c hmem) (hread c hc) hexp
  · rw [serializeCookie, Option.map_eq_none_iff]
    exact (hstored.storable c hc).lockstep.symm

/-- A visit at the start of the clocks, in the partition of this key. -/
def visit (setCookie key : String) : List Act :=
  [.absorb ⟨⟨"a.example".toList, "/".toList, true, some key.toList⟩,
    [("Set-Cookie".toList, setCookie.toList, ⟨0, 900000000⟩)], 0⟩]

def visited (maxAge : ℕ) (key : Option Text) : StoredCookie :=
  ⟨"id".toList, "1".toList, "a.example".toList, true, "/".toList, some (maxAge * second), some maxAge,
    true, false, .unset, key⟩

theorem persistence_round_trip_key :
    ∃ store, runs (step .unix lastLabels) [] (visit "id=1; Secure; Path=/; Max-Age=9; Partitioned" "s\t") =
        some store ∧
      (RoundTrips .unix (Steady (visit "id=1; Secure; Path=/; Max-Age=9; Partitioned" "s\t") ⟨0, 900000000⟩)
          ⟨0, 900000000⟩ store ↔
        ∀ c ∈ persistent store, Readable .unix ⟨0, 900000000⟩ c) := by
  refine ⟨[visited 9 (some "s\t".toList)], by decide +kernel, ?_⟩
  refine (@persistence_round_trip .unix lastLabels
    (visit "id=1; Secure; Path=/; Max-Age=9; Partitioned" "s\t") _ (by decide)
    (fun act hact clock hreads => ?_) (by decide +kernel) ⟨0, 900000000⟩).1
  obtain ⟨r, rfl, header, hheader, rfl⟩ := hreads
  obtain rfl := Act.absorb.inj (List.mem_singleton.mp hact)
  rw [List.mem_singleton.mp hheader]
  decide

theorem not_roundTrips {steady : Prop} {loaded : CookieStore}
    (h : load p clock (flushed store) = some loaded)
    (hne : loaded.map StoredCookie.partitionKey ≠ (persistent store).map StoredCookie.partitionKey) :
    ¬ RoundTrips p steady clock store := by
  rintro ⟨loaded', hload, hsame⟩
  obtain rfl := Option.some.inj (h.symm.trans hload)
  refine hne ?_
  clear h hne hload
  generalize persistent store = cs at hsame ⊢
  induction hsame with
  | nil => rfl
  | cons hc _ ih =>
    have hkey := congrArg StoredCookie.partitionKey hc.fields
    rw [List.map_cons, List.map_cons, ih, hkey]

/-- A key of no characters, one with a carriage return at its end, and a cookie that lives
for a part of its last second. -/
theorem persistence_round_trip_fails :
    (∃ store, runs (step .unix lastLabels) [] (visit "id=1; Secure; Path=/; Max-Age=9; Partitioned" "") =
        some store ∧ ¬ RoundTrips .unix False ⟨0, 900000000⟩ store) ∧
      (∃ store, runs (step .unix lastLabels) []
          (visit "id=1; Secure; Path=/; Max-Age=9; Partitioned" "s\r") = some store ∧
        ¬ RoundTrips .unix False ⟨0, 900000000⟩ store) ∧
      ∃ store, runs (step .unix lastLabels) [] (visit "id=1; Secure; Path=/; Max-Age=1" "") =
          some store ∧
        sweepExpired 600000000 store = store ∧
        ¬ RoundTrips .unix False ⟨600000000, 1500000000⟩ store := by
  refine ⟨⟨[visited 9 (some [])], by decide +kernel, ?_⟩,
    ⟨[visited 9 (some "s\r".toList)], by decide +kernel, ?_⟩,
    ⟨[visited 1 none], by decide +kernel, by decide +kernel, ?_⟩⟩
  · exact @not_roundTrips .unix _ _ _ [visited 9 none] (by decide +kernel) (by decide +kernel)
  · exact @not_roundTrips .unix _ _ _ [visited 9 (some "s".toList)] (by decide +kernel)
      (by decide +kernel)
  · exact @not_roundTrips .unix _ _ _ [] (by decide +kernel) (by decide +kernel)

end Conclave.Net.Cookies
