import Amigos.Contrib.TinyXml2
import Amigos.Index.Phrases
import Amigos.Spider.Text

/-!
# The lines of a section, as the indexer gets them

The spider wraps a text of lines into a CDATA section; the indexer reads the section with tinyxml2
and takes the text apart with `std::getline`. On the way the section ends at its first `]]>`, and a
CR, a CR LF and a LF CR have become a LF.

`surplus` counts what that comes to: a CR between two line ends makes a line of its own, and the
lines behind a `]]>` are lost (`lineCount_read`). The induction is on the lines, and what is carried
from one to the next is whether the LF between the two has a CR already.
-/

set_option autoImplicit false

namespace Amigos.Spider

open Amigos.Lib
open Amigos.Index (lines lines_terminated)
open Amigos.TinyXml2 (parseText parseText_append parseText_line normalizeNewlines)

/-! ## What the reader takes from a section -/

def cdataBegin : Str := "<![CDATA[".toList
def cdataEnd : Str := "]]>".toList

def wrapCDATA (someData : Str) : Str := cdataBegin ++ someData ++ cdataEnd

/-- The text that tinyxml2 has for the section that a file goes on with. -/
def readSection (s : Str) : Option Str := do
  let (kind, p) ← TinyXml2.identify (cPart s)
  match TinyXml2.parseLeaf false p kind with
  | .ok (node, _) => TinyXml2.getCdata [node]
  | _ => none

/-- A text up to the first end of a section in it. -/
def cutEnd (t : Str) : Str := (parseText cdataEnd t).elim t Prod.fst

/-- A NUL stands in the text, and no end of a section in front of it. -/
def Unread (t : Str) : Prop := '\x00' ∈ t ∧ ¬ cdataEnd <:+: cPart t

theorem cdataEnd_ne_nil : cdataEnd ≠ [] := by decide

theorem readSection_eq (t : Str) : readSection (wrapCDATA t)
    = (parseText cdataEnd (cPart (t ++ cdataEnd))).map fun found => normalizeNewlines found.1 := by
  have hnul : '\x00' ∉ cdataBegin := by decide
  have hidentify : TinyXml2.identify (cPart (wrapCDATA t))
      = some (.cdata, cPart (t ++ cdataEnd)) := by
    rw [wrapCDATA, List.append_assoc, cPart_append hnul]
    exact TinyXml2.identify_cdata _
  rw [readSection, hidentify, Option.bind_eq_bind, Option.bind_some]
  dsimp only [TinyXml2.parseLeaf]
  rw [show "]]>".toList = cdataEnd from rfl]
  cases parseText cdataEnd (cPart (t ++ cdataEnd)) <;> rfl

/-- **What is read of a section**: nothing if it is not closed in front of a NUL, and otherwise what
stands before the first mark, with its line ends normalized. -/
theorem readSection_cases (t : Str) : (Unread t ∧ readSection (wrapCDATA t) = none) ∨
    (¬ Unread t ∧ readSection (wrapCDATA t) = some (normalizeNewlines (cutEnd t))) := by
  have hne := cdataEnd_ne_nil
  rw [readSection_eq]
  by_cases hnul : '\x00' ∈ t
  · rw [cPart_append_of_mem hnul]
    cases hread : parseText cdataEnd (cPart t) with
    | none => exact .inl ⟨⟨hnul, (TinyXml2.parseText_eq_none_iff hne _).mp hread⟩, rfl⟩
    | some found =>
      have hcut : parseText cdataEnd t = some (found.1, found.2 ++ t.drop (cPart t).length) := by
        have happend := parseText_append hne hread (t.drop (cPart t).length)
        rwa [cPart_append_drop] at happend
      refine .inr ⟨fun h => ?_, ?_⟩
      · rw [(TinyXml2.parseText_eq_none_iff hne _).mpr h.2] at hread
        cases hread
      · rw [cutEnd, hcut]
        rfl
  · have hend : '\x00' ∉ t ++ cdataEnd := List.not_mem_append hnul (by decide)
    rw [cPart_eq hend]
    refine .inr ⟨fun h => hnul h.1, ?_⟩
    cases hread : parseText cdataEnd t with
    | none =>
      have hnot := (TinyXml2.parseText_eq_none_iff hne _).mp hread
      have hall := TinyXml2.parseText_section hnot []
      rw [List.append_nil] at hall
      rw [show t ++ cdataEnd = t ++ "]]>".toList from rfl, show cdataEnd = "]]>".toList from rfl,
        hall, cutEnd, hread]
      rfl
    | some found =>
      rw [parseText_append hne hread, cutEnd, hread]
      rfl

/-! ## Counting lines -/

/-- How many lines `std::getline` delivers. -/
def lineCount (s : Str) : ℕ := (lines (encode s)).length

theorem lineCount_newline (s : Str) : lineCount ('\n' :: s) = lineCount s + 1 := rfl

/-- Only a newline has the byte of one. -/
theorem newline_of_encode {s : Str} (h : 10 ∈ encode s) : '\n' ∈ s := by
  obtain ⟨c, hc, hbyte⟩ := List.mem_flatMap.mp h
  have hbig : ∀ {n : ℕ}, (10 : UInt8) = UInt8.ofNat n → 128 ≤ n → n < 256 → False := by
    intro n heq hn hlt
    have htoNat := congrArg UInt8.toNat heq
    rw [UInt8.toNat_ofNat', Nat.mod_eq_of_lt hlt] at htoNat
    exact absurd (htoNat ▸ hn) (by decide)
  have hnewline : c.val.toNat = 10 := by
    rw [String.utf8EncodeChar] at hbyte
    split at hbyte
    · rename_i hascii
      have htoNat := congrArg UInt8.toNat (List.mem_singleton.mp hbyte)
      rw [UInt8.toNat_ofNat', Nat.mod_eq_of_lt (by omega)] at htoNat
      exact htoNat.symm
    -- All bytes of a longer character are from 128 on.
    · exfalso
      split at hbyte
      · simp only [List.mem_cons, List.not_mem_nil, or_false] at hbyte
        rcases hbyte with hbyte | hbyte
        · exact hbig hbyte (by omega) (by omega)
        · exact hbig hbyte (by omega) (by omega)
      split at hbyte
      · simp only [List.mem_cons, List.not_mem_nil, or_false] at hbyte
        rcases hbyte with hbyte | hbyte | hbyte
        · exact hbig hbyte (by omega) (by omega)
        · exact hbig hbyte (by omega) (by omega)
        · exact hbig hbyte (by omega) (by omega)
      · simp only [List.mem_cons, List.not_mem_nil, or_false] at hbyte
        rcases hbyte with hbyte | hbyte | hbyte | hbyte
        · exact hbig hbyte (by omega) (by omega)
        · exact hbig hbyte (by omega) (by omega)
        · exact hbig hbyte (by omega) (by omega)
        · exact hbig hbyte (by omega) (by omega)
  have hchar : c = '\n' := Char.ext (UInt32.toNat_inj.mp hnewline)
  exact hchar ▸ hc

/-- Bytes of a line, in front of what may be the rest of it. -/
theorem length_lines_append {line : Bytes} (h : 10 ∉ line) (hne : line ≠ []) (s : Bytes) :
    (lines (line ++ s)).length = max 1 (lines s).length := by
  have hstep : ∀ {b : UInt8} {s : Bytes}, b ≠ 10 →
      (lines (b :: s)).length = max 1 (lines s).length := by
    intro b s hb
    rw [lines, if_neg hb]
    cases lines s with
    | nil => rfl
    | cons line rest =>
      simp only [List.length_cons]
      omega
  induction line with
  | nil => exact absurd rfl hne
  | cons b line ih =>
    obtain ⟨hb, hline⟩ := not_or.mp (mt List.mem_cons.mpr h)
    rw [List.cons_append, hstep fun heq => hb heq.symm]
    cases line with
    | nil => rfl
    | cons c line =>
      rw [ih hline (List.cons_ne_nil c line)]
      omega

theorem lineCount_cons {c : Char} (hc : c ≠ '\n') (s : Str) :
    lineCount (c :: s) = max 1 (lineCount s) := by
  have hone : encode [c] = String.utf8EncodeChar c := List.append_nil _
  refine @length_lines_append (String.utf8EncodeChar c) (fun hmem => ?_) ?_ (encode s)
  · have hnewline := newline_of_encode (hone ▸ hmem)
    exact hc (List.mem_singleton.mp hnewline).symm
  · rw [← List.length_pos_iff, String.length_utf8EncodeChar]
    exact Char.utf8Size_pos c

/-! ## Line ends -/

/-- What is read behind a line end: a CR belongs to it, if it is `free`. -/
def behindEnd (free : Bool) (s : Str) : Str := if free && s.head? = some '\r' then s.tail else s

theorem normalizeNewlines_newline (s : Str) :
    normalizeNewlines ('\n' :: s) = '\n' :: normalizeNewlines (behindEnd true s) := by
  cases s with
  | nil => rfl
  | cons d s =>
    rw [normalizeNewlines, behindEnd]
    by_cases hd : d = '\r'
    · subst hd
      rfl
    · have hpair : ¬ (('\n' = '\r' ∧ d = '\n') ∨ ('\n' = '\n' ∧ d = '\r')) := by
        simp [hd]
      have hhead : ¬ (true && (d :: s).head? = some '\r') = true := by
        simp [hd]
      rw [if_neg hpair, if_neg hhead]
      rfl

theorem normalizeNewlines_cons {c d : Char} (hc : c ≠ '\n') (hd : d ≠ '\n') (s : Str) :
    normalizeNewlines (c :: d :: s)
      = (if c = '\r' then '\n' else c) :: normalizeNewlines (d :: s) := by
  rw [normalizeNewlines, if_neg]
  simp [hc, hd]

/-- A character that is read as a line end, or as itself. -/
theorem lineCount_ite (c : Char) (hc : c ≠ '\n') (s : Str) :
    lineCount ((if c = '\r' then '\n' else c) :: s)
      = if c = '\r' then lineCount s + 1 else max 1 (lineCount s) := by
  split
  · exact lineCount_newline s
  · exact lineCount_cons hc s

/-- A line and its end: it is one for each of its CRs, but for one that stands at the end. -/
theorem lineCount_line {x : Str} (h : '\n' ∉ x) (rest : Str) :
    lineCount (normalizeNewlines (x ++ '\n' :: rest)) = x.dropLast.count '\r' + 1 +
      lineCount (normalizeNewlines (behindEnd (x.getLast? ≠ some '\r') rest)) := by
  induction x with
  | nil =>
    rw [List.nil_append, normalizeNewlines_newline, lineCount_newline]
    simp
    omega
  | cons c x ih =>
    obtain ⟨hc, hx⟩ := not_or.mp (mt List.mem_cons.mpr h)
    have hc : c ≠ '\n' := fun heq => hc heq.symm
    cases x with
    | nil =>
      by_cases hcr : c = '\r'
      · subst hcr
        have hpair : normalizeNewlines (['\r'] ++ '\n' :: rest) = '\n' :: normalizeNewlines rest :=
          if_pos (.inl ⟨rfl, rfl⟩)
        rw [hpair, lineCount_newline]
        simp [behindEnd]
        omega
      · have hsingle : normalizeNewlines ([c] ++ '\n' :: rest)
            = c :: normalizeNewlines ('\n' :: rest) := by
          rw [List.singleton_append, normalizeNewlines, if_neg (by simp [hc, hcr]), if_neg hcr]
        rw [hsingle, lineCount_cons hc, normalizeNewlines_newline, lineCount_newline]
        simp [hcr]
        omega
    | cons d x =>
      have hd : d ≠ '\n' := fun heq => hx (heq ▸ List.mem_cons_self)
      have hlast : (c :: d :: x).getLast? = (d :: x).getLast? := List.getLast?_cons_cons
      rw [List.cons_append, List.cons_append, normalizeNewlines_cons hc hd, lineCount_ite c hc,
        ← List.cons_append, ih hx, hlast, List.dropLast_cons_cons, List.count_cons]
      by_cases hcr : c = '\r'
      · simp [hcr]
        omega
      · simp [hcr]
        omega

/-- The same of a text that is not ended. -/
theorem lineCount_piece {x : Str} (h : '\n' ∉ x) :
    lineCount (normalizeNewlines x) = if x = [] then 0 else x.dropLast.count '\r' + 1 := by
  induction x with
  | nil => rfl
  | cons c x ih =>
    obtain ⟨hc, hx⟩ := not_or.mp (mt List.mem_cons.mpr h)
    have hc : c ≠ '\n' := fun heq => hc heq.symm
    rw [if_neg (List.cons_ne_nil c x)]
    cases x with
    | nil =>
      rw [normalizeNewlines, lineCount_ite c hc]
      split <;> rfl
    | cons d x =>
      have hd : d ≠ '\n' := fun heq => hx (heq ▸ List.mem_cons_self)
      rw [normalizeNewlines_cons hc hd, lineCount_ite c hc, ih hx, if_neg (List.cons_ne_nil d x),
        List.dropLast_cons_cons, List.count_cons]
      by_cases hcr : c = '\r'
      · simp [hcr]
      · simp [hcr]

/-! ## A text of lines -/

/-- **The lines that are read too many**, or too few. Every CR in a line ends a line, unless it
stands at the end of its line or behind the end of the one before; there is one CR for an end. From
the first `]]>` on nothing is read, and the line in which it stands is lost, too, if it begins with
it. `free` says that the line end in front has no CR yet. -/
def surplus : Bool → List Str → ℤ
  | _, [] => 0
  | free, line :: ls =>
    let line := behindEnd free line
    match parseText cdataEnd line with
    | some (cut, _) => cut.dropLast.count '\r' - ls.length - if cut = [] then 1 else 0
    | none => line.dropLast.count '\r' + surplus (line.getLast? ≠ some '\r') ls

/-- A text of these lines. -/
def joined (ls : List Str) : Str := ls.flatMap fun line => line ++ ['\n']

theorem cutEnd_line {line : Str} (h : parseText cdataEnd line = none) (s : Str) :
    cutEnd (line ++ '\n' :: s) = line ++ '\n' :: cutEnd s := by
  rw [cutEnd, parseText_line cdataEnd_ne_nil (by decide) h, cutEnd]
  cases parseText cdataEnd s <;> rfl

theorem cutEnd_append {line cut rest : Str} (h : parseText cdataEnd line = some (cut, rest))
    (s : Str) : cutEnd (line ++ s) = cut := by
  rw [cutEnd, parseText_append cdataEnd_ne_nil h]
  rfl

theorem cutEnd_prefix (t : Str) : cutEnd t <+: t := by
  rw [cutEnd]
  rcases TinyXml2.parseText_cases cdataEnd_ne_nil t with
    ⟨hnone, -⟩ | ⟨value, rest, hsome, heq, -⟩
  · rw [hnone]
    exact List.prefix_rfl
  · rw [hsome, heq, List.append_assoc]
    exact List.prefix_append _ _

/-- No mark begins with a CR. -/
theorem behindEnd_cutEnd (free : Bool) (s : Str) :
    behindEnd free (cutEnd s) = cutEnd (behindEnd free s) := by
  cases s with
  | nil => cases free <;> rfl
  | cons c s =>
    by_cases hcr : c = '\r'
    · subst hcr
      have hcut : cutEnd ('\r' :: s) = '\r' :: cutEnd s := by
        have hstart : cdataEnd.isPrefixOf ('\r' :: s) = false := rfl
        rw [cutEnd, parseText, hstart, if_neg Bool.false_ne_true, cutEnd]
        cases parseText cdataEnd s <;> rfl
      rw [hcut]
      cases free
      · exact hcut.symm
      · rfl
    · have hs : behindEnd free (c :: s) = c :: s := by simp [behindEnd, hcr]
      have hprefix := cutEnd_prefix (c :: s)
      rw [hs]
      cases hcut : cutEnd (c :: s) with
      | nil => cases free <;> rfl
      | cons d s' =>
        obtain ⟨rfl, -⟩ := List.cons_prefix_cons.mp (hcut ▸ hprefix)
        simp [behindEnd, hcr]

theorem behindEnd_line (free : Bool) (line s : Str) :
    behindEnd free (line ++ '\n' :: s) = behindEnd free line ++ '\n' :: s := by
  cases line with
  | nil => cases free <;> rfl
  | cons c line =>
    have hhead : (c :: line ++ '\n' :: s).head? = (c :: line).head? := rfl
    rw [behindEnd, behindEnd, hhead]
    split <;> rfl

theorem notMem_behindEnd {c : Char} {line : Str} (h : c ∉ line) (free : Bool) :
    c ∉ behindEnd free line := by
  rw [behindEnd]
  split
  · exact fun hmem => h (List.mem_of_mem_tail hmem)
  · exact h

/-- **The lines of a text, when it has been read.** By induction on the lines. -/
theorem lineCount_read {ls : List Str} : (∀ line ∈ ls, '\n' ∉ line) → ∀ free : Bool,
    (lineCount (normalizeNewlines (behindEnd free (cutEnd (joined ls)))) : ℤ)
      = ls.length + surplus free ls := by
  induction ls with
  | nil =>
    intro _ free
    cases free <;> rfl
  | cons line ls ih =>
    intro h free
    obtain ⟨hline, hls⟩ := List.forall_mem_cons.mp h
    have hnewline := notMem_behindEnd hline free
    have hjoined : joined (line :: ls) = line ++ '\n' :: joined ls := by
      rw [joined, List.flatMap_cons, List.append_assoc]
      rfl
    rw [hjoined, behindEnd_cutEnd, behindEnd_line, surplus]
    generalize behindEnd free line = line at hnewline
    cases hread : parseText cdataEnd line with
    | some found =>
      obtain ⟨cut, rest⟩ := found
      have hcut : '\n' ∉ cut := by
        have hfront := cutEnd_prefix line
        rw [cutEnd, hread] at hfront
        exact fun hmem => hnewline (hfront.subset hmem)
      rw [cutEnd_append hread, lineCount_piece hcut, List.length_cons]
      dsimp only
      split
      · rename_i hnil
        subst hnil
        rw [List.dropLast_nil, List.count_nil]
        omega
      · push_cast
        omega
    | none =>
      have hrest := ih hls (line.getLast? ≠ some '\r')
      rw [cutEnd_line hread, lineCount_line hnewline, List.length_cons]
      dsimp only
      push_cast at hrest ⊢
      omega

/-- Lines without a CR and without a `]` are read as they are. -/
theorem surplus_eq_zero {ls : List Str} (hcr : ∀ line ∈ ls, '\r' ∉ line)
    (hend : ∀ line ∈ ls, ']' ∉ line) : ∀ {free : Bool}, surplus free ls = 0 := by
  induction ls with
  | nil => exact rfl
  | cons line ls ih =>
    intro free
    rw [List.forall_mem_cons] at hcr hend
    have hline := notMem_behindEnd hcr.1 free
    have hread : parseText cdataEnd (behindEnd free line) = none := by
      rw [TinyXml2.parseText_eq_none_iff cdataEnd_ne_nil]
      have hbracket : ']' ∈ cdataEnd := by decide
      exact fun hinside => notMem_behindEnd hend.1 free (hinside.subset hbracket)
    rw [surplus, hread]
    dsimp only
    rw [ih hcr.2 hend.2, List.count_eq_zero.mpr fun hmem => hline (List.dropLast_subset _ hmem)]
    rfl

/-- A CR in a line makes two of it; at its end, or behind the end in front, it does not. -/
example : surplus false ["a\rb".toList, "c".toList] = 1 ∧
    surplus false ["a\r".toList, "b".toList, "\rc".toList] = 0 := by decide

/-- Behind a mark nothing is read: two lines are lost, and none. -/
example : surplus false ["a]]>b".toList, "c".toList, "d".toList] = -2 ∧
    surplus false ["c".toList, "a]]>b".toList] = 0 := by decide

end Amigos.Spider
