import Conclave.Browser.FrameCodec

/-! What a renderer sends is what the browser shows. Every field of a frame is read from
the bytes written for it, and every frame that is read fits: a list or a string has less
than 2^32 elements, and a weight is at most 1000. So a frame comes back as it was when it
fits, and only then. -/

namespace Conclave.Browser.FrameCodec

open Lib Reader

variable {α : Type} {e : DecodeError}

/-! ### Primitives -/

theorem reads_u8 (v : UInt8) (e : DecodeError) : Reads readU8 (writeU8 v) e e v :=
  ((reads_uint (k := 1) v.toNat_lt e).map (g := UInt8.ofNat)).cast rfl UInt8.ofNat_toNat

theorem reads_u32 (v : UInt32) (e : DecodeError) : Reads readU32 (writeU32 v) e e v :=
  ((reads_uint (k := 4) v.toNat_lt e).map (g := UInt32.ofNat)).cast rfl UInt32.ofNat_toNat

theorem reads_u64 (v : UInt64) (e : DecodeError) : Reads readU64 (writeU64 v) e e v :=
  ((reads_uint (k := 8) v.toNat_lt e).map (g := UInt64.ofNat)).cast rfl UInt64.ofNat_toNat

theorem reads_i32 (v : Int32) (e : DecodeError) : Reads readI32 (writeI32 v) e e v :=
  (reads_u32 v.toUInt32 e).map

theorem reads_count {n : ℕ} (hn : n < 2 ^ 32) (e : DecodeError) :
    Reads readU32 (toLe 4 n) e e (UInt32.ofNat n) := (reads_uint (k := 4) hn e).map

theorem reads_bool (v : Bool) (e : DecodeError) : Reads readBool (writeBool v) e e v := by
  have h := (reads_u8 (if v then 1 else 0) e).map (g := fun n => decide (n ≠ 0))
  exact h.cast rfl (by cases v <;> rfl)

/-- Text that is short enough for its length to be written. -/
def Short (s : String) : Prop := (utf8 s).length < 2 ^ 32

theorem reads_str {s : String} (h : Short s) (e : DecodeError) :
    Reads readStr (writeStr s) e e s := (reads_bytes h e).bind_eq (by rw [fromUtf8_utf8])

theorem reads_option {write : α → Bytes} {r : Decoder α} {o : Option α}
    (h : ∀ a ∈ o, Reads r (write a) e e a) : Reads (readOption r) (writeOption write o) e e o := by
  cases o with
  | none => exact (reads_bool false e).bind_eq rfl
  | some a => exact (reads_bool true e).bind (h a rfl).map

theorem reads_list {write : α → Bytes} {r : Decoder α} {as : List α} (hn : as.length < 2 ^ 32)
    (h : ∀ a ∈ as, Reads r (write a) e e a) : Reads (readList r) (writeList write as) e e as := by
  have hitems := reads_times (g := id) e h
  rw [List.map_id] at hitems
  refine (reads_count hn e).bind ?_
  rwa [UInt32.toNat_ofNat', Nat.mod_eq_of_lt hn]

/-! ### What fits -/

structure TextItem.Fits (t : TextItem) : Prop where
  weight : t.fontWeight.toNat ≤ 1000
  gradient : t.textGradient = none
  family : ∀ f ∈ t.fontFamily, Short f
  text : Short t.text

structure HitRegion.Fits (hr : HitRegion) : Prop where
  href : ∀ h ∈ hr.href, Short h
  path : ∀ p ∈ hr.elementPath, p.length < 2 ^ 32 ∧ ∀ seg ∈ p, seg < 2 ^ 32

structure TabSummary.Fits (t : TabSummary) : Prop where
  title : Short t.title
  url : Short t.url

def Bitmap.Fits (b : Bitmap) : Prop := frameBytesOk b.width b.height b.pixels.length = true

/-- A list whose length can be written, of elements that fit. -/
def AllFit (fits : α → Prop) (as : List α) : Prop := as.length < 2 ^ 32 ∧ ∀ a ∈ as, fits a

structure Fits (paint : PaintData) (tabs : List TabSummary) : Prop where
  bitmap : paint.bitmap.Fits
  texts : AllFit TextItem.Fits paint.texts
  hitRegions : AllFit HitRegion.Fits paint.hitRegions
  title : Short paint.title
  currentUrl : Short paint.currentUrl
  tabs : AllFit TabSummary.Fits tabs

/-! ### What fits is read -/

theorem clampWeight_eq {v : UInt16} (h : v.toNat ≤ 1000) :
    clampWeight v.toUInt32.toInt32 = v := by
  have hv : v.toUInt32 = UInt32.ofNat v.toNat := by
    apply UInt32.toNat_inj.mp
    rw [UInt32.toNat_ofNat', UInt16.toNat_toUInt32]
    omega
  have hint : v.toUInt32.toInt32.toInt = v.toNat := by
    rw [hv, UInt32.toInt32_ofNat', Int32.toInt_ofNat_of_lt (by omega)]
  have hclamp : (min (max (v.toNat : ℤ) 0) 1000).toNat = v.toNat := by omega
  rw [clampWeight, hint, hclamp, UInt16.ofNat_toNat]

theorem reads_textAlign (a : TextAlign) (e : DecodeError) :
    Reads decodeTextAlign (encodeTextAlign a) e e a := by
  cases a with
  | left => exact (reads_u8 0 e).bind_eq rfl
  | center => exact (reads_u8 1 e).bind_eq rfl
  | right => exact (reads_u8 2 e).bind_eq rfl

theorem reads_rgb (c : UInt8 × UInt8 × UInt8) (e : DecodeError) :
    Reads decodeRgb (encodeRgb c) e e c := by
  simp only [encodeRgb, List.append_assoc]
  exact (reads_u8 c.1 e).bind ((reads_u8 c.2.1 e).bind (reads_u8 c.2.2 e).map)

theorem reads_textItem {t : TextItem} (h : t.Fits) (e : DecodeError) :
    Reads decodeTextItem (encodeTextItem t) e e t := by
  simp only [encodeTextItem, List.append_assoc]
  refine (reads_i32 t.x e).bind ?_
  refine (reads_i32 t.y e).bind ?_
  refine (reads_i32 t.w e).bind ?_
  refine (reads_i32 t.h e).bind ?_
  refine (reads_i32 t.fontSizePx e).bind ?_
  refine (reads_bool t.bold e).bind ?_
  refine (reads_i32 _ e).bind ?_
  refine (reads_bool t.italic e).bind ?_
  refine (reads_option fun f hf => reads_str (h.family f hf) e).bind ?_
  refine (reads_rgb t.colorRgb e).bind ?_
  refine (reads_u8 t.colorAlpha e).bind ?_
  refine (reads_str h.text e).bind ?_
  refine (reads_textAlign t.align e).bind ?_
  refine (reads_i32 t.letterSpacingPx e).bind ((reads_bool t.isChrome e).bind_eq ?_)
  rw [clampWeight_eq h.weight, ← h.gradient]

theorem reads_hitRegion {hr : HitRegion} (h : hr.Fits) (e : DecodeError) :
    Reads decodeHitRegion (encodeHitRegion hr) e e hr := by
  simp only [encodeHitRegion, List.append_assoc]
  refine (reads_i32 hr.x e).bind ?_
  refine (reads_i32 hr.y e).bind ?_
  refine (reads_i32 hr.w e).bind ?_
  refine (reads_i32 hr.h e).bind ?_
  refine (reads_option fun f hf => reads_str (h.href f hf) e).bind ?_
  refine Reads.map (reads_option fun p hp => ?_)
  refine reads_list (h.path p hp).1 fun seg hseg => ?_
  have hlt := (h.path p hp).2 seg hseg
  exact (reads_count hlt e).map.cast rfl (by rw [UInt32.toNat_ofNat', Nat.mod_eq_of_lt hlt])

theorem reads_tabSummary {t : TabSummary} (h : t.Fits) (e : DecodeError) :
    Reads decodeTabSummary (encodeTabSummary t) e e t := by
  simp only [encodeTabSummary, List.append_assoc]
  refine (reads_u64 t.id e).bind ?_
  exact (reads_str h.title e).bind ((reads_str h.url e).bind (reads_bool t.active e).map)

theorem frameBytesOk_spec {width height : UInt32} {n : ℕ} (h : frameBytesOk width height n = true) :
    width.toNat * height.toNat = n ∧ n < 2 ^ 32 := by
  unfold frameBytesOk MAX_FRAME_BYTES at h
  split_ifs at h with _ _ hn
  have := of_decide_eq_true h
  omega

theorem reads_bitmap {b : Bitmap} (h : b.Fits) (e : DecodeError) :
    Reads decodeBitmap (encodeBitmap b) e e b := by
  obtain ⟨hn, hlt⟩ := frameBytesOk_spec h
  have hcount : (UInt32.ofNat b.pixels.length).toNat = b.pixels.length := by
    rw [UInt32.toNat_ofNat', Nat.mod_eq_of_lt hlt]
  have hpixels := reads_times (g := id) e fun px (_ : px ∈ b.pixels) => reads_u32 px e
  rw [List.map_id] at hpixels
  simp only [encodeBitmap, List.append_assoc]
  refine (reads_u32 b.width e).bind ((reads_u32 b.height e).bind ?_)
  refine (reads_count hlt e).bind ?_
  rw [Bitmap.Fits] at h
  rw [hcount, if_pos h, hn]
  exact hpixels.map

theorem reads_rect (c : Int32 × Int32 × Int32 × Int32) (e : DecodeError) :
    Reads decodeRect (encodeRect c) e e c := by
  simp only [encodeRect, List.append_assoc]
  exact (reads_i32 c.1 e).bind ((reads_i32 c.2.1 e).bind
    ((reads_i32 c.2.2.1 e).bind (reads_i32 c.2.2.2 e).map))

theorem reads_colors (c : (UInt8 × UInt8 × UInt8) × UInt8 × UInt8 × UInt8) (e : DecodeError) :
    Reads decodeColors (encodeColors c) e e c :=
  (reads_rgb c.1 e).bind (reads_rgb c.2 e).map

theorem reads_frame {paint : PaintData} {tabs : List TabSummary} (h : Fits paint tabs)
    (e : DecodeError) : Reads readFrame (encodeFrame paint tabs) e e
      ⟨{ paint with contentOriginY := 0, documentH := 0 }, tabs⟩ := by
  simp only [encodeFrame, List.append_assoc]
  refine (reads_u32 FRAME_CODEC_VERSION e).bind ?_
  rw [if_neg (not_not.mpr rfl)]
  refine (reads_bitmap h.bitmap e).bind ?_
  refine (reads_list h.texts.1 fun t ht => reads_textItem (h.texts.2 t ht) e).bind ?_
  refine (reads_list h.hitRegions.1 fun hr hmem =>
    reads_hitRegion (h.hitRegions.2 hr hmem) e).bind ?_
  refine (reads_str h.title e).bind ?_
  refine (reads_str h.currentUrl e).bind ?_
  refine (reads_u32 paint.chromeH e).bind ?_
  refine (reads_u32 paint.viewportH e).bind ?_
  refine (reads_option fun c _ => reads_rect c e).bind ?_
  refine (reads_option fun c _ => reads_rgb c e).bind ?_
  refine (reads_u8 paint.scrollbarTheme.widthMode e).bind ?_
  refine (reads_option fun c _ => reads_colors c e).bind ?_
  exact (reads_list h.tabs.1 fun t ht => reads_tabSummary (h.tabs.2 t ht) e).map

/-! ### What is read fits -/

theorem returns_failWith (P : α → Prop) (e : DecodeError) : Returns (failWith e) P := by
  intro b s a b' s' hr
  cases (Prod.ext_iff.mp hr).1

theorem returns_str : Returns readStr Short := by
  have hbytes : Returns (bytes : Decoder Bytes) fun b => b.length < 2 ^ 32 :=
    (returns_uint 4).bind fun n hn => (returns_take n).mono fun b hb => hb ▸ hn
  refine hbytes.bind fun b hb => ?_
  cases hs : fromUtf8 b with
  | none => exact returns_failWith _ _
  | some s => exact .pure (by rw [Short, utf8_of_fromUtf8 hs]; exact hb)

theorem returns_option {r : Decoder α} {P : α → Prop} (h : Returns r P) :
    Returns (readOption r) fun o => ∀ a ∈ o, P a := by
  refine (returns_any _).bind fun v _ => ?_
  cases v
  · exact .pure nofun
  · exact h.bind fun a ha => .pure fun a' ha' => Option.some.inj ha' ▸ ha

theorem returns_list {r : Decoder α} {P : α → Prop} (h : Returns r P) :
    Returns (readList r) (AllFit P) := by
  refine (returns_any _).bind fun n _ => (returns_times h n.toNat).mono fun as has => ?_
  exact ⟨has.1 ▸ n.toNat_lt, has.2⟩

theorem clampWeight_le (v : Int32) : (clampWeight v).toNat ≤ 1000 := by
  rw [clampWeight, UInt16.toNat_ofNat']
  omega

theorem returns_textItem : Returns decodeTextItem TextItem.Fits := by
  refine (returns_any _).bind fun x _ => (returns_any _).bind fun y _ => ?_
  refine (returns_any _).bind fun w _ => (returns_any _).bind fun h _ => ?_
  refine (returns_any _).bind fun size _ => (returns_any _).bind fun bold _ => ?_
  refine (returns_any _).bind fun weight _ => (returns_any _).bind fun italic _ => ?_
  refine (returns_option returns_str).bind fun family hfamily => ?_
  refine (returns_any _).bind fun rgb _ => (returns_any _).bind fun alpha _ => ?_
  refine returns_str.bind fun text htext => ?_
  refine (returns_any _).bind fun align _ => (returns_any _).bind fun spacing _ => ?_
  exact (returns_any _).bind fun chrome _ => .pure ⟨clampWeight_le weight, rfl, hfamily, htext⟩

theorem returns_hitRegion : Returns decodeHitRegion HitRegion.Fits := by
  refine (returns_any _).bind fun x _ => (returns_any _).bind fun y _ => ?_
  refine (returns_any _).bind fun w _ => (returns_any _).bind fun h _ => ?_
  refine (returns_option returns_str).bind fun href hhref => ?_
  have hseg : Returns (do return (← readU32).toNat : Decoder ℕ) fun seg => seg < 2 ^ 32 :=
    (returns_any _).bind fun n _ => .pure n.toNat_lt
  exact (returns_option (returns_list hseg)).bind fun path hpath => .pure ⟨hhref, hpath⟩

theorem returns_tabSummary : Returns decodeTabSummary TabSummary.Fits := by
  refine (returns_any _).bind fun id _ => returns_str.bind fun title htitle => ?_
  exact returns_str.bind fun url hurl => (returns_any _).bind fun _ _ => .pure ⟨htitle, hurl⟩

theorem returns_bitmap : Returns decodeBitmap Bitmap.Fits := by
  refine (returns_any _).bind fun width _ => (returns_any _).bind fun height _ => ?_
  refine (returns_any _).bind fun n _ => ?_
  split_ifs with hok
  · refine (returns_times (returns_any _) _).bind fun pixels hpixels => .pure ?_
    rw [Bitmap.Fits, hpixels.1, (frameBytesOk_spec hok).1]
    exact hok
  · exact returns_failWith _ _

theorem returns_frame : Returns readFrame fun f => Fits f.paint f.tabs := by
  refine (returns_any _).bind fun version _ => ?_
  split_ifs
  · exact returns_failWith _ _
  refine returns_bitmap.bind fun bitmap hbitmap => ?_
  refine (returns_list returns_textItem).bind fun texts htexts => ?_
  refine (returns_list returns_hitRegion).bind fun regions hregions => ?_
  refine returns_str.bind fun title htitle => returns_str.bind fun url hurl => ?_
  refine (returns_any _).bind fun chromeH _ => (returns_any _).bind fun viewportH _ => ?_
  refine (returns_any _).bind fun rect _ => (returns_any _).bind fun color _ => ?_
  refine (returns_any _).bind fun mode _ => (returns_any _).bind fun colors _ => ?_
  exact (returns_list returns_tabSummary).bind fun tabs htabs =>
    .pure ⟨hbitmap, htexts, hregions, htitle, hurl, htabs⟩

/-! ### Round trip -/

/-- The browser gets the frame of the renderer. The position of a band is not sent. -/
def RoundTrips (paint : PaintData) (tabs : List TabSummary) : Prop :=
  decodeFrame (encodeFrame paint tabs) =
    .ok ⟨{ paint with contentOriginY := 0, documentH := 0 }, tabs⟩

theorem decodeFrame_fits {b : Bytes} {f : CommittedFrame} (h : decodeFrame b = .ok f) :
    Fits f.paint f.tabs := by
  unfold decodeFrame Decoder.run at h
  rcases hr : readFrame b .truncated with ⟨o, b', e⟩
  rw [hr] at h
  cases o with
  | none => cases h
  | some f' =>
    obtain rfl := Except.ok.inj h
    exact returns_frame b _ _ _ _ hr

/-- A frame survives the way to the browser when it fits, and only then. -/
theorem frame_round_trip (paint : PaintData) (tabs : List TabSummary) :
    RoundTrips paint tabs ↔ Fits paint tabs := by
  constructor
  · intro h
    obtain ⟨hbitmap, htexts, hregions, htitle, hurl, htabs⟩ := decodeFrame_fits h
    exact ⟨hbitmap, htexts, hregions, htitle, hurl, htabs⟩
  · intro h
    have hr := (reads_frame h .truncated).whole []
    rw [List.append_nil] at hr
    rw [RoundTrips, decodeFrame, Decoder.run, hr]

def heavyText : TextItem :=
  ⟨0, 0, 0, 0, 16, true, 1001, false, none, (0, 0, 0), 255, "", .left, 0, false, none⟩

def heavyPaint : PaintData :=
  ⟨⟨1, 1, [0]⟩, [heavyText], [], "", "", 0, 0, none, none, 0, 0, ⟨0, none⟩⟩

/-- A weight above the range is read as 1000. -/
theorem heavy_text_changed : ¬ ∀ (paint : PaintData) (tabs : List TabSummary),
    (∀ t ∈ paint.texts, t.textGradient = none) → paint.bitmap.Fits → RoundTrips paint tabs := by
  intro h
  have hfits := decodeFrame_fits (h heavyPaint []
    (fun t ht => List.mem_singleton.mp ht ▸ rfl) (by decide : frameBytesOk 1 1 1 = true))
  exact absurd (hfits.texts.2 heavyText List.mem_cons_self).weight (by decide)

end Conclave.Browser.FrameCodec
