import MyLua.Tools.HexCodec
import Mathlib.Data.Bool.AllAny
import Mathlib.Data.List.Basic
import Mathlib.Data.Prod.Basic

/-!
# Records of Percent-Encoded Fields

A record is a list of key and value pairs, written as text: both are encoded, a key is joined to
its value with `=` and the pairs with `&`. The encoders escape the separators, so the text
determines the pairs.

## Main results

- `joinPairs_injective`: fields without the separators are determined by their joined text.
- `percentText_clean`: what can stand in an encoded field.
- `record_safety`: the text of a record determines the record.
-/

namespace MyLua.Tools

open MyLua.Foundation

/-! ## §1 Joined fields -/

section Joined

variable {β : Type*}

/-- Keys joined to values with `sep`, and pairs with `sep'`. -/
def joinPairs (sep sep' : β) (pairs : List (List β × List β)) : List β :=
  [sep'].intercalate (pairs.map fun p => p.1 ++ sep :: p.2)

/-- A field has neither of the separators. -/
def CleanPair (sep sep' : β) (p : List β × List β) : Prop :=
  sep ∉ p.1 ∧ sep' ∉ p.1 ∧ sep ∉ p.2 ∧ sep' ∉ p.2

/-- Fields without the separators are determined by their joined text. -/
theorem joinPairs_injective {sep sep' : β} (hne : sep ≠ sep') {ps qs : List (List β × List β)}
    (hps : ps ≠ []) (hqs : qs ≠ []) (cleanp : ∀ p ∈ ps, CleanPair sep sep' p)
    (cleanq : ∀ q ∈ qs, CleanPair sep sep' q) (h : joinPairs sep sep' ps = joinPairs sep sep' qs) :
    ps = qs := by
  classical
  -- The separator of the pairs is in none of them, so splitting there undoes the join.
  have hsplit : ∀ rs : List (List β × List β), rs ≠ [] → (∀ r ∈ rs, CleanPair sep sep' r) →
      (joinPairs sep sep' rs).splitOn sep' = rs.map fun r => r.1 ++ sep :: r.2 := by
    intro rs hrs clean
    apply List.splitOn_intercalate
    · intro l hl
      obtain ⟨r, hr, rfl⟩ := List.mem_map.mp hl
      obtain ⟨-, hkey, -, hvalue⟩ := clean r hr
      simp only [List.mem_append, List.mem_cons, not_or]
      exact ⟨hkey, hne.symm, hvalue⟩
    · simpa using hrs
  have hmap : ps.map (fun r => r.1 ++ sep :: r.2) = qs.map fun r => r.1 ++ sep :: r.2 := by
    rw [← hsplit ps hps cleanp, ← hsplit qs hqs cleanq, h]
  -- The first separator in a pair is the one behind its key.
  clear h hps hqs hsplit
  induction ps generalizing qs with
  | nil => exact (List.map_eq_nil_iff.mp hmap.symm).symm
  | cons p ps ih =>
    cases qs with
    | nil => simp at hmap
    | cons q qs =>
      rw [List.map_cons, List.map_cons] at hmap
      obtain ⟨hpair, hrest⟩ := List.cons.inj hmap
      have hp := cleanp p List.mem_cons_self
      obtain ⟨hkey, -, hvalue⟩ := (List.append_cons_inj_of_notMem hp.1 hp.2.2.1).mp hpair
      rw [Prod.ext hkey hvalue, ih (fun r hr => cleanp r (List.mem_cons_of_mem _ hr))
        (fun r hr => cleanq r (List.mem_cons_of_mem _ hr)) hrest]

end Joined

/-! ## §2 What can stand in an encoded field -/

/-- The digits of an escape. -/
def upperHexDigits : Bytes := ascii "0123456789ABCDEF"

/-- Every `'%'` of the text is followed by two upper-case hexadecimal digits. -/
def OnlyEscapes (t : Bytes) : Prop :=
  ∀ pre post, t = pre ++ percent :: post →
    ∃ x y rest, post = x :: y :: rest ∧ x ∈ upperHexDigits ∧ y ∈ upperHexDigits

theorem hexChar_mem : ∀ v < 16, hexChar v ∈ upperHexDigits := by decide

theorem hexHigh_mem (c : UInt8) : hexHigh c ∈ upperHexDigits := by
  have hc := c.toNat_lt
  rw [hexHigh_eq]
  exact hexChar_mem _ (by omega)

theorem hexLow_mem (c : UInt8) : hexLow c ∈ upperHexDigits := by
  rw [hexLow_eq]
  exact hexChar_mem _ (by omega)

/-- A digit is neither a separator nor the escape character. -/
theorem upperHexDigits_clean : ∀ c ∈ upperHexDigits, c ∉ sEncodeTable :=
  List.all_iff_forall_prop.mp (by decide)

/-- A text that an encoder of the table writes has none of the characters of the table but
`'%'`. -/
theorem percentText_clean {escape : UInt8 → Bool} (hesc : ∀ c ∈ sEncodeTable, escape c = true)
    (s : Bytes) : ∀ c ∈ percentText escape s, c ∈ sEncodeTable → c = percent := by
  intro c hc htable
  obtain ⟨c', -, hc⟩ := List.mem_flatMap.mp hc
  unfold percentChar at hc
  split at hc
  · -- An escape: the escape character and two digits.
    simp only [List.mem_cons, List.not_mem_nil, or_false] at hc
    rcases hc with rfl | rfl | rfl
    · rfl
    · exact absurd htable (upperHexDigits_clean _ (hexHigh_mem c'))
    · exact absurd htable (upperHexDigits_clean _ (hexLow_mem c'))
  · -- A copied character is not in the table.
    rename_i hcopy
    rw [List.mem_singleton.mp hc] at htable
    exact absurd (hesc c' htable) hcopy

/-- An escape character of the text begins the escape of a character of the string. -/
theorem escape_of_percentText {escape : UInt8 → Bool} (hesc : escape percent = true)
    {s pre post : Bytes} (h : percentText escape s = pre ++ percent :: post) :
    ∃ c ∈ s, ∃ rest, escape c = true ∧ post = hexHigh c :: hexLow c :: rest := by
  have hpercent : percent ∈ sEncodeTable := by decide
  have hdigit : ∀ c ∈ upperHexDigits, c ≠ percent := by
    rintro c hc rfl
    exact upperHexDigits_clean _ hc hpercent
  induction s generalizing pre with
  | nil => simp at h
  | cons c s ih =>
    -- Behind the text of `c` it is in the text of the rest.
    have hrest : ∀ {pre}, percentText escape s = pre ++ percent :: post →
        ∃ c' ∈ c :: s, ∃ rest, escape c' = true ∧ post = hexHigh c' :: hexLow c' :: rest := by
      intro pre h
      obtain ⟨c', hc', hpost⟩ := ih h
      exact ⟨c', List.mem_cons_of_mem c hc', hpost⟩
    rw [percentText_cons, percentChar] at h
    split at h
    · -- At the front it is the escape of `c`; the two digits are no escape characters.
      rename_i hescape
      cases pre with
      | nil => exact ⟨c, List.mem_cons_self, _, hescape, (List.cons.inj h).2.symm⟩
      | cons _ pre =>
        have h₁ := (List.cons.inj h).2
        cases pre with
        | nil => exact absurd (List.cons.inj h₁).1 (hdigit _ (hexHigh_mem c))
        | cons _ pre =>
          have h₂ := (List.cons.inj h₁).2
          cases pre with
          | nil => exact absurd (List.cons.inj h₂).1 (hdigit _ (hexLow_mem c))
          | cons _ pre => exact hrest (List.cons.inj h₂).2
    · rename_i hcopy
      cases pre with
      | nil =>
        have hc : c = percent := (List.cons.inj h).1
        exact absurd (hc ▸ hesc) hcopy
      | cons _ pre => exact hrest (List.cons.inj h).2

/-- The escape character only begins escapes. -/
theorem onlyEscapes_percentText {escape : UInt8 → Bool} (hesc : escape percent = true)
    (s : Bytes) : OnlyEscapes (percentText escape s) := by
  intro pre post h
  obtain ⟨c, -, rest, -, rfl⟩ := escape_of_percentText hesc h
  exact ⟨_, _, rest, rfl, hexHigh_mem c, hexLow_mem c⟩

/-- A string is determined by its encoded text. -/
theorem percentText_injective {escape : UInt8 → Bool} (hesc : escape percent = true) :
    Function.Injective (percentText escape) := by
  intro s s' h
  have hs := percentMeaning_percentText hesc s
  rw [h, percentMeaning_percentText hesc s'] at hs
  exact (Option.some.inj hs).symm

/-! ## §3 Records -/

/-- The string an encoder hands out: what is in front of the NUL in its block. -/
def encodedText (encode : Bytes → Option HexResult) (s : Bytes) : Option Bytes :=
  (encode (s ++ [0])).bind fun r => if r.ret = 0 then r.block.bind cString else none

/-- The keys and values of a record, encoded. -/
def encodedPairs (encode : Bytes → Option HexResult) :
    List (Bytes × Bytes) → Option (List (Bytes × Bytes))
  | [] => some []
  | (k, v) :: pairs => do
      let k ← encodedText encode k
      let v ← encodedText encode v
      let pairs ← encodedPairs encode pairs
      return (k, v) :: pairs

/-- The text of a record. -/
def recordText (encode : Bytes → Option HexResult) (pairs : List (Bytes × Bytes)) :
    Option Bytes :=
  (encodedPairs encode pairs).map (joinPairs (ch '=') (ch '&'))

variable {A : Allocator}

/-- An encoder that gets its block hands out the text of its string. -/
theorem encodedText_of_malloc {escape : UInt8 → Bool} {s : Bytes} (hs : (0 : UInt8) ∉ s)
    (hA : (A.malloc (s.length * 3 + 4)).isSome) :
    encodedText (encodeWith escape A) s = some (percentText escape s) := by
  obtain ⟨block, hblock⟩ := Option.isSome_iff_exists.mp hA
  have hlen := length_percentText_le escape s
  have hread := cString_append_zeros (nul_notMem_percentText escape hs)
    (show 0 < s.length * 3 + 4 - (percentText escape s).length by omega)
  simp [encodedText, encodeWith_eq hs hblock, hread]

/-- An encoder that succeeds hands out the text of its string. -/
theorem encodedText_eq {escape : UInt8 → Bool} {s t : Bytes} (hs : (0 : UInt8) ∉ s)
    (h : encodedText (encodeWith escape A) s = some t) : t = percentText escape s := by
  cases hA : A.malloc (s.length * 3 + 4) with
  | none =>
    -- Without a block the status is -1.
    simp only [encodedText, encodeWith, cString_append_zero hs, Option.bind_eq_bind,
      Option.bind_some, hA, pure] at h
    cases h
  | some block =>
    rw [encodedText_of_malloc hs (by rw [hA]; rfl)] at h
    exact (Option.some.inj h).symm

theorem encodedPairs_eq {escape : UInt8 → Bool} {pairs texts : List (Bytes × Bytes)}
    (hnul : ∀ p ∈ pairs, (0 : UInt8) ∉ p.1 ∧ (0 : UInt8) ∉ p.2)
    (h : encodedPairs (encodeWith escape A) pairs = some texts) :
    texts = pairs.map (Prod.map (percentText escape) (percentText escape)) := by
  induction pairs generalizing texts with
  | nil => exact (Option.some.inj h).symm
  | cons p pairs ih =>
    obtain ⟨hk, hv⟩ := hnul p List.mem_cons_self
    simp only [encodedPairs, Option.bind_eq_bind, Option.bind_eq_some_iff] at h
    obtain ⟨k, hkey, v, hvalue, rest, hrest, h⟩ := h
    rw [← Option.some.inj h, encodedText_eq hk hkey, encodedText_eq hv hvalue,
      ih (fun q hq => hnul q (List.mem_cons_of_mem _ hq)) hrest]
    rfl

/-- The text of a record determines the record, for every encoder of the table. -/
theorem recordText_injective {escape : UInt8 → Bool} (hesc : ∀ c ∈ sEncodeTable, escape c = true)
    {pairs pairs' : List (Bytes × Bytes)} (hne : pairs ≠ []) (hne' : pairs' ≠ [])
    (hnul : ∀ p ∈ pairs, (0 : UInt8) ∉ p.1 ∧ (0 : UInt8) ∉ p.2)
    (hnul' : ∀ p ∈ pairs', (0 : UInt8) ∉ p.1 ∧ (0 : UInt8) ∉ p.2) {t : Bytes}
    (h : recordText (encodeWith escape A) pairs = some t)
    (h' : recordText (encodeWith escape A) pairs' = some t) : pairs = pairs' := by
  obtain ⟨texts, htexts, hjoin⟩ := Option.map_eq_some_iff.mp h
  obtain ⟨texts', htexts', hjoin'⟩ := Option.map_eq_some_iff.mp h'
  rw [encodedPairs_eq hnul htexts] at hjoin
  rw [encodedPairs_eq hnul' htexts'] at hjoin'
  have hpercent : escape percent = true := hesc percent (by decide)
  -- An encoded field has none of the two separators.
  have hclean (qs : List (Bytes × Bytes)) :
      ∀ p ∈ qs.map (Prod.map (percentText escape) (percentText escape)),
        CleanPair (ch '=') (ch '&') p := by
    intro p hp
    obtain ⟨q, -, rfl⟩ := List.mem_map.mp hp
    have hno (c : UInt8) (hc : c ∈ sEncodeTable) (hne : c ≠ percent) (s : Bytes) :
        c ∉ percentText escape s :=
      fun hmem => hne (percentText_clean hesc s c hmem hc)
    exact ⟨hno _ (by decide) (by decide) _, hno _ (by decide) (by decide) _,
      hno _ (by decide) (by decide) _, hno _ (by decide) (by decide) _⟩
  have hmap := joinPairs_injective (by decide) (by simpa using hne) (by simpa using hne')
    (hclean pairs) (hclean pairs') (hjoin.trans hjoin'.symm)
  have hinj := percentText_injective hpercent
  exact List.map_injective_iff.mpr (Function.Injective.prodMap hinj hinj) hmap

/-- `String_Encode` escapes the characters of its table. -/
theorem stringEscapes_table : ∀ c ∈ sEncodeTable, stringEscapes c = true :=
  List.all_eq_true.mp (by decide)

/-- So does `HexString_Encode`, whatever `isprint` says. -/
theorem hexStringEscapes_table (isprint : Int → Bool) :
    ∀ c ∈ sEncodeTable, hexStringEscapes isprint c = true := by
  intro c hc
  have htable : (strchr sEncodeTable c).isSome = true := stringEscapes_table c hc
  rw [hexStringEscapes, htable, Bool.or_true]

/-- **Record safety**: what an encoder hands out for a NUL-free string has no `=`, `&`, CR or LF,
and `%` only in front of two upper-case hexadecimal digits; and the text of a record, all of it
encoded with that encoder, determines the record, if it has a pair. -/
theorem record_safety (A : Allocator) (isprint : Int → Bool) :
    ∀ encode ∈ [stringEncode A, hexStringEncode isprint A],
    (∀ s t : Bytes, (0 : UInt8) ∉ s → encodedText encode s = some t →
      (∀ c ∈ t, c ∉ ascii "=&\r\n") ∧ OnlyEscapes t) ∧
    ∀ pairs pairs' : List (Bytes × Bytes), pairs ≠ [] → pairs' ≠ [] →
      (∀ p ∈ pairs, (0 : UInt8) ∉ p.1 ∧ (0 : UInt8) ∉ p.2) →
      (∀ p ∈ pairs', (0 : UInt8) ∉ p.1 ∧ (0 : UInt8) ∉ p.2) →
      ∀ t, recordText encode pairs = some t → recordText encode pairs' = some t →
      pairs = pairs' := by
  -- The two encoders have one body, and both escape the characters of the table.
  have main : ∀ escape : UInt8 → Bool, (∀ c ∈ sEncodeTable, escape c = true) →
      (∀ s t : Bytes, (0 : UInt8) ∉ s → encodedText (encodeWith escape A) s = some t →
        (∀ c ∈ t, c ∉ ascii "=&\r\n") ∧ OnlyEscapes t) ∧
      ∀ pairs pairs' : List (Bytes × Bytes), pairs ≠ [] → pairs' ≠ [] →
        (∀ p ∈ pairs, (0 : UInt8) ∉ p.1 ∧ (0 : UInt8) ∉ p.2) →
        (∀ p ∈ pairs', (0 : UInt8) ∉ p.1 ∧ (0 : UInt8) ∉ p.2) →
        ∀ t, recordText (encodeWith escape A) pairs = some t →
        recordText (encodeWith escape A) pairs' = some t → pairs = pairs' := by
    intro escape hesc
    have hforbidden : ∀ c ∈ ascii "=&\r\n", c ∈ sEncodeTable ∧ c ≠ percent :=
      List.all_iff_forall_prop.mp (by decide)
    constructor
    · intro s t hs h
      rw [encodedText_eq hs h]
      refine ⟨?_, onlyEscapes_percentText (hesc percent (by decide)) s⟩
      intro c hc hbad
      obtain ⟨htable, hpercent⟩ := hforbidden c hbad
      exact hpercent (percentText_clean hesc s c hc htable)
    · intro pairs pairs' hne hne' hnul hnul' t h h'
      exact recordText_injective hesc hne hne' hnul hnul' h h'
  simp only [List.mem_cons, List.not_mem_nil, or_false, forall_eq_or_imp, forall_eq]
  exact ⟨main _ stringEscapes_table, main _ (hexStringEscapes_table isprint)⟩

/-- The record with the one pair `"a" = "b&c"` is not the text of two pairs. -/
theorem record_safety_forged :
    OnlyEscapes (ascii "b%26c") ∧
    ∃ t, recordText (stringEncode Allocator.cleared) [(ascii "a", ascii "b&c")] = some t ∧
      recordText (stringEncode Allocator.cleared)
        [(ascii "a", ascii "b"), (ascii "c", [])] ≠ some t := by
  obtain ⟨hfield, hrecord⟩ :=
    record_safety Allocator.cleared (fun _ => true) _ List.mem_cons_self
  constructor
  · exact (hfield (ascii "b&c") (ascii "b%26c") (by decide) (by decide +kernel)).2
  · refine ⟨ascii "a=b%26c", by decide +kernel, fun h => ?_⟩
    have hsame := hrecord [(ascii "a", ascii "b&c")] [(ascii "a", ascii "b"), (ascii "c", [])]
      (by decide) (by decide) (by decide) (by decide) _ (by decide +kernel) h
    exact absurd hsame (by decide)

end MyLua.Tools
