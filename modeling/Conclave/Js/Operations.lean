import Conclave.Js.Layout

/-! The operations of an ordered map as one alphabet. An operation answers from the
entries and changes them, and it does so in the same way however the map is stored:
`applyEntries` says it over entry lists, `apply` is what the map does. -/

namespace Conclave.Js

open Lib OrderedMap

/-- A use of a map. `u` is what the caller does with a `&mut` to a value; `intoIter`
consumes a clone. -/
inductive MapOp (V : Type)
  | insert (k : String) (v : V)
  | get (k : String)
  | getMut (k : String) (u : V → V)
  | getOrInsertWith (k : String) (f : Unit → V) (u : V → V)
  | containsKey (k : String)
  | remove (k : String)
  | clear
  | retain (f : Keep V)
  | drain
  | extend (es : List (String × V))
  | slotOf (k : String)
  | valueAtSlot (slot : ℕ)
  | setAtSlot (slot : ℕ) (v : V)
  | len
  | keys
  | values
  | iter
  | intoIter

/-- What an operation returns. -/
inductive Returned (V : Type)
  | unit
  | value (v : Option V)
  | bool (b : Bool)
  | slot (i : Option ℕ)
  | nat (n : ℕ)
  | keys (ks : List String)
  | values (vs : List V)
  | entries (es : List (String × V))

variable {V : Type}

namespace OrderedMap

def apply (m : OrderedMap V) (g : Globals) : MapOp V → Returned V × OrderedMap V × Globals
  | .insert k v => let (r, m, g) := m.insert g k v; (.value r, m, g)
  | .get k => (.value (m.get g k), m, g)
  | .getMut k u => let (r, m) := m.getMut g k u; (.value r, m, g)
  | .getOrInsertWith k f u => let (r, m, g) := m.getOrInsertWith g k f u; (.value r, m, g)
  | .containsKey k => (.bool (m.containsKey g k), m, g)
  | .remove k => let (r, m, g) := m.remove g k; (.value r, m, g)
  | .clear => (.unit, m.clear g)
  | .retain f => (.unit, m.retain g f)
  | .drain => let (es, m, g) := m.drain g; (.entries es, m, g)
  | .extend es => (.unit, extend es m g)
  | .slotOf k => (.slot (m.slotOf g k), m, g)
  | .valueAtSlot slot => (.value (m.valueAtSlot slot), m, g)
  | .setAtSlot slot v => (.unit, m.setAtSlot slot v, g)
  | .len => (.nat m.len, m, g)
  | .keys => (.keys (m.keys g), m, g)
  | .values => (.values m.values, m, g)
  | .iter => (.entries (m.iter g), m, g)
  | .intoIter => let (es, g) := m.intoIter g; (.entries es, m, g)

end OrderedMap

/-- The operations over entry lists. -/
def applyEntries (es : List (String × V)) : MapOp V → Returned V × List (String × V)
  | .insert k v => (.value (es.lookup k), Entries.put es k v)
  | .get k => (.value (es.lookup k), es)
  | .getMut k u => (.value (es.lookup k), Entries.modify es k u)
  | .getOrInsertWith k f u =>
    (.value (some ((es.lookup k).getD (f ()))), Entries.upsert es k u (u (f ())))
  | .containsKey k => (.bool (k ∈ Entries.keys es), es)
  | .remove k => (.value (es.lookup k), Entries.erase es k)
  | .clear => (.unit, [])
  | .retain f => (.unit, retainLoop f [] es)
  | .drain => (.entries es, [])
  | .extend new => (.unit, new.foldl (fun acc e => Entries.put acc e.1 e.2) es)
  | .slotOf k => (.slot ((Entries.keys es).idxOf? k), es)
  | .valueAtSlot slot => (.value (es[slot]?.map Prod.snd), es)
  | .setAtSlot slot v => (.unit, es.modify slot fun e => (e.1, v))
  | .len => (.nat es.length, es)
  | .keys => (.keys (Entries.keys es), es)
  | .values => (.values (es.map Prod.snd), es)
  | .iter => (.entries es, es)
  | .intoIter => (.entries es, es)

variable {g g' : Globals} {m m' : OrderedMap V}

namespace OrderedMap

theorem apply_length_le (m : OrderedMap V) (g : Globals) (op : MapOp V) :
    g.table.shapes.length ≤ (m.apply g op).2.2.table.shapes.length := by
  cases op with
  | insert k v => exact insert_length_le m g k v
  | getOrInsertWith k f u => exact getOrInsertWith_length_le m g k f u
  | extend es => exact extend_length_le es m g
  | remove k => exact (congrArg (·.shapes.length) (remove_table m g k)).ge
  | clear => exact (congrArg (·.shapes.length) (clear_table m g)).ge
  | retain f => exact (congrArg (·.shapes.length) (retain_table m g f)).ge
  | drain => exact (congrArg (·.shapes.length) (drain_table m g)).ge
  | intoIter => exact (congrArg (·.shapes.length) (intoIter_table m g)).ge
  | _ => exact le_rfl

theorem Valid.intoIter_after (hok : g.table.Ok) (h : m.Valid g) :
    After g (m.intoIter g).2 m (m.iter g) := by
  have ht := intoIter_table m g
  have hext : g.table.Extends (m.intoIter g).2.table := by
    rw [ht]
    exact .refl _
  obtain ⟨hv, hi⟩ := h.mono hext
  exact ⟨by rwa [ht], by rw [ht]; exact .refl _, hv, hi⟩

/-- An operation answers and acts as over the entry list, while the shape table keeps
to its limit. -/
theorem Valid.apply_after (hok : g.table.Ok) (h : m.Valid g) (op : MapOp V)
    (hlen : (m.apply g op).2.2.table.shapes.length ≤ 2 ^ 32) :
    (m.apply g op).1 = (applyEntries (m.iter g) op).1 ∧
      After g (m.apply g op).2.2 (m.apply g op).2.1 (applyEntries (m.iter g) op).2 := by
  have hself := h.after hok
  cases op with
  | insert k v =>
    obtain ⟨hr, haft⟩ := h.insert_after hok k v hlen
    exact ⟨congrArg _ hr, haft⟩
  | get k => exact ⟨congrArg _ (h.get_eq hok k), hself⟩
  | getMut k u =>
    obtain ⟨hr, haft⟩ := h.getMut_after hok k u
    exact ⟨congrArg _ hr, haft⟩
  | getOrInsertWith k f u =>
    obtain ⟨hr, haft⟩ := h.getOrInsertWith_after hok k f u hlen
    exact ⟨congrArg _ hr, haft⟩
  | containsKey k => exact ⟨congrArg _ (h.containsKey_eq hok k), hself⟩
  | remove k =>
    obtain ⟨hr, haft⟩ := h.remove_after hok k
    exact ⟨congrArg _ hr, haft⟩
  | clear => exact ⟨rfl, clear_after hok m⟩
  | retain f => exact ⟨rfl, h.retain_after hok f⟩
  | drain =>
    obtain ⟨hr, haft⟩ := h.drain_after hok
    exact ⟨congrArg _ hr, haft⟩
  | extend es => exact ⟨rfl, h.extend_after hok hlen⟩
  | slotOf k => exact ⟨congrArg _ ((h.slotOf_of hok).eq_idxOf? k), hself⟩
  | valueAtSlot slot => exact ⟨congrArg _ (h.valueAtSlot_eq slot), hself⟩
  | setAtSlot slot v =>
    refine ⟨rfl, ?_⟩
    simp only [apply, setAtSlot_eq]
    exact h.modifySlot_after hok slot _
  | len => exact ⟨congrArg _ h.len_eq, hself⟩
  | keys => exact ⟨congrArg _ h.keys_eq, hself⟩
  | values => exact ⟨congrArg _ h.values_eq, hself⟩
  | iter => exact ⟨rfl, hself⟩
  | intoIter => exact ⟨congrArg _ (h.intoIter_eq hok), h.intoIter_after hok⟩

end OrderedMap

end Conclave.Js
