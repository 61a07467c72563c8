import Mathlib.Data.List.Flatten
import Mathlib.Data.List.Nodup
import Mathlib.Data.Rat.Defs
import Amigos.Spider.Text

/-!
# The converter and its output files (`converter.py`)

`save` writes a record to the open file, and opens another one when more than `flush_after`
characters have been written since the last opening. The name of a file is the time at which it is
opened, in seconds: whoever opens a second file in the same second empties the first.

A run is put against the sequence of its records, cut where a file is left for the next
(`Cut.run`). The records of an emptied file are gone, and an emptied file has at least one, since a
file is left only behind a record (`whole_iff`).
-/

set_option autoImplicit false

namespace Amigos.Spider

/-! ## The source -/

/-- A `dict`, item by item: a value is a `dict` again, or is formatted as text. -/
inductive Dict where
  | nil
  | text (tag content : Str) (items : Dict)
  | dict (tag : Str) (content items : Dict)
  deriving DecidableEq, Repr

/-- `fd.write`: what the file then holds, and the number of characters written. -/
def write (fd text : Str) : Str × ℕ := (fd ++ text, text.length)

def openTag (shift : ℕ) (tag : Str) : Str := List.replicate shift ' ' ++ ['<'] ++ tag ++ ['>']

def closeTag (tag : Str) : Str := "</".toList ++ tag ++ ">\n".toList

def writeDictAsXml (fd : Str) (shift : ℕ) : Dict → Str × ℕ
  | .nil => (fd, 0)
  | .dict tag content items =>
    let (fd, cnt₁) := write fd (openTag shift tag ++ ['\n'])
    let (fd, cnt₂) := writeDictAsXml fd (shift + 2) content
    let (fd, cnt₃) := write fd (List.replicate shift ' ' ++ closeTag tag)
    let (fd, cnt) := writeDictAsXml fd shift items
    (fd, cnt₁ + cnt₂ + cnt₃ + cnt)
  | .text tag content items =>
    let (fd, cnt₁) := write fd (openTag shift tag ++ content ++ closeTag tag)
    let (fd, cnt) := writeDictAsXml fd shift items
    (fd, cnt₁ + cnt)

def xmlHeader : Str := "<?xml version=\"1.0\" encoding=\"utf-8\" ?>\n".toList
def itemsBegin : Str := "<items>\n".toList
def itemsEnd : Str := "</items>\n".toList
def itemBegin : Str := "  <item>\n".toList
def itemEnd : Str := "  </item>\n".toList

/-- `int(time)`: towards zero. -/
def second (time : ℚ) : ℤ := time.num.tdiv time.den

/-- A file is known by the second in its name. -/
structure Converter where
  flushAfter : ℤ
  charCnt : ℕ
  /-- The files of this run that have been closed. -/
  files : List (ℤ × Str)
  /-- The open file. -/
  fd : ℤ × Str
  deriving DecidableEq, Repr

namespace Converter

/-- `open(.., 'w')` behind some other files, and the header: a file of this name is emptied. -/
def openFile (flushAfter : ℤ) (charCnt : ℕ) (files : List (ℤ × Str)) (time : ℚ) : Converter :=
  let (fd, cnt₁) := write [] xmlHeader
  let (fd, cnt₂) := write fd itemsBegin
  { flushAfter
    charCnt := charCnt + cnt₁ + cnt₂
    files := files.filter fun file => file.1 ≠ second time
    fd := (second time, fd) }

/-- The constructor: `openNewFile(True)`. -/
def init (flushAfter : ℤ) (time : ℚ) : Converter := openFile flushAfter 0 [] time

/-- `openNewFile`, of a converter that has a file open. -/
def openNewFile (c : Converter) (time : ℚ) : Converter :=
  let (fd, cnt) := write c.fd.2 itemsEnd
  openFile c.flushAfter cnt (c.files ++ [(c.fd.1, fd)]) time

/-- `save`; `time` is what the clock says if it is read. -/
def save (c : Converter) (time : ℚ) (info : Dict) : Converter :=
  let (fd, cnt₁) := write c.fd.2 itemBegin
  let (fd, cnt₂) := writeDictAsXml fd 4 info
  let (fd, cnt₃) := write fd itemEnd
  let c := { c with charCnt := c.charCnt + cnt₁ + cnt₂ + cnt₃, fd := (c.fd.1, fd) }
  if (c.charCnt : ℤ) > c.flushAfter then c.openNewFile time else c

/-- The calls of a run, each with its time. -/
def saves (c : Converter) (calls : List (ℚ × Dict)) : Converter :=
  calls.foldl (fun c call => c.save call.1 call.2) c

/-- `__del__`, and the files that are there then. -/
def del (c : Converter) : List (ℤ × Str) :=
  c.files ++ [(c.fd.1, (write c.fd.2 itemsEnd).1)]

end Converter

/-- A run: the output files of a converter that is constructed, serves these calls and is
closed. -/
def convert (flushAfter : ℤ) (start : ℚ) (calls : List (ℚ × Dict)) : List (ℤ × Str) :=
  ((Converter.init flushAfter start).saves calls).del

/-! ## Records and documents -/

/-- What `writeDictAsXml` writes. -/
def xmlOf (shift : ℕ) : Dict → Str
  | .nil => []
  | .dict tag content items =>
    openTag shift tag ++ ['\n'] ++ xmlOf (shift + 2) content ++
      (List.replicate shift ' ' ++ closeTag tag) ++ xmlOf shift items
  | .text tag content items => openTag shift tag ++ content ++ closeTag tag ++ xmlOf shift items

/-- A record, as it stands in a file. -/
def item (info : Dict) : Str := itemBegin ++ xmlOf 4 info ++ itemEnd

/-- A document that is not complete yet. -/
def beginning (infos : List Dict) : Str := xmlHeader ++ itemsBegin ++ infos.flatMap item

/-- **A complete document** of these records. -/
def document (infos : List Dict) : Str := beginning infos ++ itemsEnd

/-- **What the files of a run should be**: complete documents under different names, and every
record that has been saved in exactly one of them. -/
def Whole (files : List (ℤ × Str)) (infos : List Dict) : Prop :=
  ∃ parts : List (ℤ × List Dict), files = parts.map (fun part => (part.1, document part.2)) ∧
    (parts.map Prod.fst).Nodup ∧ (parts.flatMap Prod.snd).Perm infos

theorem writeDictAsXml_eq (info : Dict) : ∀ (fd : Str) (shift : ℕ),
    writeDictAsXml fd shift info = (fd ++ xmlOf shift info, (xmlOf shift info).length) := by
  induction info with
  | nil =>
    intro fd shift
    rw [writeDictAsXml, xmlOf, List.append_nil]
    rfl
  | text tag content items ih =>
    intro fd shift
    simp only [writeDictAsXml, write, ih, xmlOf, List.append_assoc, List.length_append,
      Nat.add_assoc]
  | dict tag content items ih ih' =>
    intro fd shift
    simp only [writeDictAsXml, write, ih, ih', xmlOf, List.append_assoc, List.length_append,
      Nat.add_assoc]

theorem item_ne_nil (info : Dict) : item info ≠ [] := by
  rw [item, List.append_assoc]
  exact List.append_ne_nil_of_left_ne_nil (by decide) _

theorem beginning_snoc (infos : List Dict) (info : Dict) :
    beginning (infos ++ [info]) = beginning infos ++ item info := by
  simp only [beginning, List.flatMap_append, List.flatMap_singleton, List.append_assoc]

/-! ## When files are opened -/

/-- The number of characters behind an opening: the header, and the end of the file before. -/
def headerCnt : ℕ := xmlHeader.length + itemsBegin.length

/-- The times of the calls that open a file, by the sizes of the records, behind `cnt`
characters. -/
def rollTimes (flushAfter : ℤ) : ℕ → List (ℚ × Dict) → List ℚ
  | _, [] => []
  | cnt, (time, info) :: calls =>
    let cnt := cnt + (item info).length
    if (cnt : ℤ) > flushAfter then
      time :: rollTimes flushAfter (itemsEnd.length + headerCnt) calls
    else rollTimes flushAfter cnt calls

/-- The seconds in which a run opens its files. -/
def openings (flushAfter : ℤ) (start : ℚ) (calls : List (ℚ × Dict)) : List ℤ :=
  (start :: rollTimes flushAfter headerCnt calls).map second

/-! ## A run as a cut -/

/-- **The converter has cut its records**: the closed files are documents of some of them, none of
which is empty, and the open file begins one. If all openings are in different seconds nothing is
missing; if two are in one second, something is. -/
structure Cut (c : Converter) (infos : List Dict) (opened : List ℤ) (parts : List (ℤ × List Dict))
    (last : List Dict) : Prop where
  files : c.files = parts.map fun part => (part.1, document part.2)
  fd : c.fd.2 = beginning last
  nonempty : ∀ part ∈ parts, part.2 ≠ []
  sublist : (parts.flatMap Prod.snd ++ last).Sublist infos
  whole : opened.Nodup →
    parts.flatMap Prod.snd ++ last = infos ∧ parts.map Prod.fst ++ [c.fd.1] = opened
  lost : ¬ opened.Nodup → (parts.flatMap Prod.snd ++ last).length < infos.length

theorem Cut.init (flushAfter : ℤ) (time : ℚ) :
    Cut (.init flushAfter time) [] [second time] [] [] where
  files := rfl
  fd := rfl
  nonempty _ h := absurd h List.not_mem_nil
  sublist := List.Sublist.refl _
  whole _ := ⟨rfl, rfl⟩
  lost h := absurd (List.nodup_singleton _) h

/-- A record goes to the open file. -/
theorem Cut.push {c c' : Converter} {infos : List Dict} {opened : List ℤ}
    {parts : List (ℤ × List Dict)} {last : List Dict} (h : Cut c infos opened parts last)
    {info : Dict} (hfiles : c'.files = c.files) (hname : c'.fd.1 = c.fd.1)
    (hfd : c'.fd.2 = c.fd.2 ++ item info) :
    Cut c' (infos ++ [info]) opened parts (last ++ [info]) where
  files := hfiles.trans h.files
  fd := by rw [hfd, h.fd, beginning_snoc]
  nonempty := h.nonempty
  sublist := by
    rw [← List.append_assoc]
    exact h.sublist.append_right [info]
  whole hnodup := by
    obtain ⟨hrecords, hnames⟩ := h.whole hnodup
    exact ⟨by rw [← List.append_assoc, hrecords], by rw [hname, hnames]⟩
  lost hdup := by
    have hlost := h.lost hdup
    simp only [List.length_append, List.length_singleton] at hlost ⊢
    omega

/-- What has an element filtered out that is not empty has become shorter. -/
theorem length_flatMap_filter_lt {α β : Type} {l : List α} {p : α → Bool} {f : α → List β} {a : α}
    (ha : a ∈ l) (hp : p a = false) (hne : f a ≠ []) :
    ((l.filter p).flatMap f).length < (l.flatMap f).length := by
  obtain ⟨before, behind, rfl⟩ := List.append_of_mem ha
  have hbefore := ((List.filter_sublist (p := p) (l := before)).flatMap f).length_le
  have hbehind := ((List.filter_sublist (p := p) (l := behind)).flatMap f).length_le
  have hpos := List.length_pos_iff.mpr hne
  rw [List.filter_append, List.filter_cons_of_neg (by rw [hp]; exact Bool.false_ne_true)]
  simp only [List.flatMap_append, List.flatMap_cons, List.length_append] at *
  omega

/-- **Another file is opened**: the open one is closed, and the one of the new name is emptied. -/
theorem Cut.openNewFile {c : Converter} {infos : List Dict} {opened : List ℤ}
    {parts : List (ℤ × List Dict)} {last : List Dict} (h : Cut c infos opened parts last)
    (hlast : last ≠ []) (time : ℚ) :
    Cut (c.openNewFile time) infos (opened ++ [second time])
      ((parts ++ [(c.fd.1, last)]).filter fun part => part.1 ≠ second time) [] := by
  obtain ⟨left, hleft⟩ : ∃ left, left = parts ++ [(c.fd.1, last)] := ⟨_, rfl⟩
  have hrecords : left.flatMap Prod.snd = parts.flatMap Prod.snd ++ last := by
    rw [hleft, List.flatMap_append, List.flatMap_singleton]
  have hnames : left.map Prod.fst = parts.map Prod.fst ++ [c.fd.1] := by
    rw [hleft, List.map_append, List.map_singleton]
  have hnonempty : ∀ part ∈ left, part.2 ≠ [] := by
    rw [hleft, List.forall_mem_append, List.forall_mem_singleton]
    exact ⟨h.nonempty, hlast⟩
  have hkept : ((left.filter fun part => part.1 ≠ second time).flatMap Prod.snd).Sublist
      (left.flatMap Prod.snd) := List.filter_sublist.flatMap Prod.snd
  rw [← hleft]
  refine ⟨?_, ?_, ?_, ?_, ?_, ?_⟩
  · have hclosed : c.files ++ [(c.fd.1, c.fd.2 ++ itemsEnd)]
        = left.map fun part => (part.1, document part.2) := by
      rw [h.files, h.fd, hleft, List.map_append]
      rfl
    show (c.files ++ [(c.fd.1, c.fd.2 ++ itemsEnd)]).filter _ = _
    rw [hclosed, List.filter_map]
    rfl
  · rfl
  · exact fun part hpart => hnonempty part (List.mem_of_mem_filter hpart)
  · rw [List.append_nil]
    exact hkept.trans (hrecords ▸ h.sublist)
  · intro hnodup
    obtain ⟨hopened, -, hnew⟩ := List.nodup_append.mp hnodup
    obtain ⟨hwhole, hnames'⟩ := h.whole hopened
    have hall : left.filter (fun part => part.1 ≠ second time) = left := by
      apply List.filter_eq_self.mpr
      intro part hpart
      have hmem : part.1 ∈ opened := by
        rw [← hnames', ← hnames]
        exact List.mem_map_of_mem hpart
      simpa using hnew _ hmem _ (List.mem_singleton_self _)
    rw [hall, List.append_nil, hrecords, hnames, hnames']
    exact ⟨hwhole, rfl⟩
  · intro hdup
    rw [List.append_nil]
    by_cases hopened : opened.Nodup
    -- The new name is that of a file, which has a record.
    · obtain ⟨hwhole, hnames'⟩ := h.whole hopened
      have hmem : second time ∈ left.map Prod.fst := by
        rw [hnames, hnames']
        by_contra hnot
        refine hdup (List.nodup_append.mpr ⟨hopened, List.nodup_singleton _, ?_⟩)
        rintro a ha b hb rfl
        exact hnot (List.mem_singleton.mp hb ▸ ha)
      obtain ⟨part, hpart, hname⟩ := List.mem_map.mp hmem
      rw [← hwhole, ← hrecords]
      exact length_flatMap_filter_lt hpart (by simp [hname]) (hnonempty part hpart)
    · exact Nat.lt_of_le_of_lt (hkept.length_le.trans_eq (congrArg _ hrecords)) (h.lost hopened)

/-- What a call does: the record is written and counted, and then a file is opened, or not. -/
theorem save_eq (c : Converter) (time : ℚ) (info : Dict) :
    c.save time info =
      let c' := { c with
        charCnt := c.charCnt + (item info).length
        fd := (c.fd.1, c.fd.2 ++ item info) }
      if (c'.charCnt : ℤ) > c'.flushAfter then c'.openNewFile time else c' := by
  have hcnt : c.charCnt + itemBegin.length + (xmlOf 4 info).length + itemEnd.length
      = c.charCnt + (item info).length := by
    simp only [item, List.length_append, Nat.add_assoc]
  have hfd : c.fd.2 ++ itemBegin ++ xmlOf 4 info ++ itemEnd = c.fd.2 ++ item info := by
    simp only [item, List.append_assoc]
  simp only [Converter.save, write, writeDictAsXml_eq, hcnt, hfd]

/-- **All calls**, by induction on them; the counter says when files are opened. -/
theorem Cut.run (calls : List (ℚ × Dict)) : ∀ {c : Converter} {infos : List Dict} {opened : List ℤ}
    {parts : List (ℤ × List Dict)} {last : List Dict}, Cut c infos opened parts last →
    ∃ parts' last', Cut (c.saves calls) (infos ++ calls.map Prod.snd)
      (opened ++ (rollTimes c.flushAfter c.charCnt calls).map second) parts' last' := by
  induction calls with
  | nil =>
    intro c infos opened parts last h
    refine ⟨parts, last, ?_⟩
    rw [rollTimes, List.map_nil, List.map_nil, List.append_nil, List.append_nil]
    exact h
  | cons call calls ih =>
    intro c infos opened parts last h
    obtain ⟨time, info⟩ := call
    obtain ⟨c', hc'⟩ : ∃ c', c' = { c with
        charCnt := c.charCnt + (item info).length
        fd := (c.fd.1, c.fd.2 ++ item info) } := ⟨_, rfl⟩
    have hsave : c.saves ((time, info) :: calls) =
        (if (c'.charCnt : ℤ) > c'.flushAfter then c'.openNewFile time else c').saves calls := by
      rw [hc', Converter.saves, List.foldl_cons, save_eq]
      rfl
    have hpush : Cut c' (infos ++ [info]) opened parts (last ++ [info]) :=
      h.push (by rw [hc']) (by rw [hc']) (by rw [hc'])
    have hcnt : c.charCnt + (item info).length = c'.charCnt := by rw [hc']
    have hlimit : c.flushAfter = c'.flushAfter := by rw [hc']
    have hinfos : infos ++ ((time, info) :: calls).map Prod.snd
        = infos ++ [info] ++ calls.map Prod.snd := List.append_cons ..
    rw [hsave, hinfos, rollTimes, hcnt, hlimit]
    by_cases hroll : (c'.charCnt : ℤ) > c'.flushAfter
    · have hlast : last ++ [info] ≠ [] := List.append_ne_nil_of_right_ne_nil _ (by simp)
      have hnew : (c'.openNewFile time).charCnt = itemsEnd.length + headerCnt := Nat.add_assoc ..
      have hrun := ih (hpush.openNewFile hlast time)
      rw [hnew, List.append_assoc opened] at hrun
      simp only [if_pos hroll]
      exact hrun
    · simp only [if_neg hroll]
      exact ih hpush

/-! ## What the files of a run hold -/

/-- The records of documents, by the documents: the header and the end are the same for all. -/
theorem flatMap_item_eq {parts : List (ℤ × List Dict)} : ∀ {parts' : List (ℤ × List Dict)},
    (parts.map fun part => (part.1, document part.2))
      = (parts'.map fun part => (part.1, document part.2)) →
    (parts.flatMap Prod.snd).flatMap item = (parts'.flatMap Prod.snd).flatMap item := by
  induction parts with
  | nil =>
    intro parts' h
    rw [List.map_eq_nil_iff.mp h.symm]
  | cons part parts ih =>
    intro parts' h
    cases parts' with
    | nil => cases h
    | cons part' parts' =>
      obtain ⟨hpart, hparts⟩ := List.cons.inj h
      have hitems : part.2.flatMap item = part'.2.flatMap item :=
        List.append_cancel_left (List.append_cancel_right (Prod.mk.inj hpart).2)
      rw [List.flatMap_cons, List.flatMap_cons, List.flatMap_append, List.flatMap_append, hitems,
        ih hparts]

/-- A part of some records is shorter than all of them. -/
theorem length_items_lt {infos infos' : List Dict} (h : infos.Sublist infos')
    (hlt : infos.length < infos'.length) :
    (infos.flatMap item).length < (infos'.flatMap item).length := by
  induction h with
  | slnil => exact absurd hlt (Nat.lt_irrefl 0)
  | cons info h ih =>
    have hle := (h.flatMap item).length_le
    have hpos := List.length_pos_iff.mpr (item_ne_nil info)
    rw [List.flatMap_cons, List.length_append]
    omega
  | cons_cons info h ih =>
    have hlt' := ih (Nat.lt_of_succ_lt_succ hlt)
    rw [List.flatMap_cons, List.flatMap_cons, List.length_append, List.length_append]
    omega

/-- **The files of a run hold every record once, in complete documents, exactly if** no two files
are opened in the same second. -/
theorem whole_iff (flushAfter : ℤ) (start : ℚ) (calls : List (ℚ × Dict)) :
    Whole (convert flushAfter start calls) (calls.map Prod.snd) ↔
      (openings flushAfter start calls).Nodup := by
  obtain ⟨parts, last, hcut⟩ := Cut.run calls (Cut.init flushAfter start)
  obtain ⟨c, hc⟩ : ∃ c, c = (Converter.init flushAfter start).saves calls := ⟨_, rfl⟩
  have hopened : [second start] ++ (rollTimes (Converter.init flushAfter start).flushAfter
      (Converter.init flushAfter start).charCnt calls).map second
        = openings flushAfter start calls := rfl
  rw [hopened, List.nil_append, ← hc] at hcut
  have hfiles : convert flushAfter start calls
      = (parts ++ [(c.fd.1, last)]).map fun part => (part.1, document part.2) := by
    rw [convert, ← hc, Converter.del, hcut.files, hcut.fd, List.map_append]
    rfl
  have hrecords : (parts ++ [(c.fd.1, last)]).flatMap Prod.snd
      = parts.flatMap Prod.snd ++ last := by
    rw [List.flatMap_append, List.flatMap_singleton]
  constructor
  · rintro ⟨parts', hparts, -, hperm⟩
    by_contra hdup
    have hlt := length_items_lt hcut.sublist (hcut.lost hdup)
    rw [← hrecords, flatMap_item_eq (hfiles.symm.trans hparts),
      (hperm.flatMap_right item).length_eq] at hlt
    exact absurd hlt (Nat.lt_irrefl _)
  · intro hnodup
    obtain ⟨hwhole, hnames⟩ := hcut.whole hnodup
    refine ⟨_, hfiles, ?_, ?_⟩
    · rw [List.map_append, List.map_singleton, hnames]
      exact hnodup
    · rw [hrecords, hwhole]

/-- **Two files in a second**: a converter that opens a file for every record, and a record half a
second behind its start. The second file has the name of the first, and the record is gone. -/
theorem not_whole_sameSecond :
    ¬ ∀ (flushAfter : ℤ) (start : ℚ) (calls : List (ℚ × Dict)),
      (start :: calls.map Prod.fst).Pairwise (· ≤ ·) →
      Whole (convert flushAfter start calls) (calls.map Prod.snd) := by
  intro hclaim
  have hfiles : convert 0 1000 [(1000 + 1 / 2, .nil)]
      = [((1000 : ℤ), ([] : List Dict))].map fun part => (part.1, document part.2) := by
    decide +kernel
  obtain ⟨parts, hparts, -, hperm⟩ := hclaim 0 1000 [(1000 + 1 / 2, .nil)] (by decide +kernel)
  have hitems := flatMap_item_eq (hfiles.symm.trans hparts)
  have hlength := (hperm.flatMap_right item).length_eq
  rw [← hitems] at hlength
  exact absurd hlength (by decide)

end Amigos.Spider
