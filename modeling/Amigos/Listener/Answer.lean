import Amigos.Contrib.Elements
import Amigos.Contrib.Values
import Amigos.Launcher.Indexed
import Amigos.Listener.Format
import Amigos.Listener.Query
import Amigos.Searcher.Snippets

/-!
# The answer of a listener (`MakeXml` and `Search` of `listener/main.cpp`)

A request is parsed, searched for, and answered with an XML page: how many documents were found in
all, and of those that the request asks for the link, the title and the three best snippets, each
with its selections. Titles and snippets go through `Format`, so no text can end the attribute it
is written into, and the page is read back for exactly what was written (`makeXml_readsBack`). The
id of a video is written as it is.
-/

set_option autoImplicit false

namespace Amigos.Listener

open Amigos.Lib
open Amigos.Common
open Amigos.Index
open Amigos.Indexer
open Amigos.Ranker
open Amigos.Searcher
open Amigos.Launcher

/-! ## The source -/

structure Document where
  videoId : Bytes
  title : Bytes
  docId : UInt32
  deriving DecidableEq, Repr

/-- What the launcher has opened, next to the index, and what it takes from libraries. The result
of a cast of a number that is too large is not defined. -/
structure Service (τ : Type) where
  S : StdSort
  lib : TextLibrary
  env : TextEnv
  normalizes : Normalizes lib env
  docDB : DocDatabase
  stod : Bytes → Option τ
  toLongLong : τ → Option Int

variable {τ : Type}

/-- `Searcher::get_doc`. -/
def Service.getDoc (service : Service τ) (docId : UInt32) : Option Document := do
  let (_, rawDoc) ← service.docDB.getDoc docId rawDocInit
  return { videoId := rawDoc.videoId, title := rawDoc.title, docId }

/-- `Launcher::get_snippets`. -/
def Service.getSnippets [LinearOrder τ] [Zero τ] (service : Service τ) (fuel : Nat) (query : Bytes)
    (docId : UInt32) (snippets : List (Snippet τ)) (snippetsNum : UInt32) :
    Outcome PhrasesError (List (Snippet τ)) := do
  let normWords ← .ofOption (service.lib.terminate2vec query false)
  Searcher.getSnippets fuel service.S service.lib.toLower service.stod service.docDB docId normWords
    snippets snippetsNum

/-- `std::to_string` of a `long long`. -/
def decimalInt : Int → Bytes
  | .ofNat n => decimal n
  | .negSucc n => 45 :: decimal (n + 1)

/-- The innermost loop of `MakeXml`. -/
def addSelection (xml : Bytes) (selection : Selection) : Bytes :=
  let xml := xml ++ (ascii "\t\t\t <selection start=\"" ++ decimal selection.startPos.toNat ++
    ascii "\" ")
  xml ++ (ascii "length=\"" ++ decimal selection.length.toNat ++ ascii "\"/>\n")

/-- The loop over the snippets. -/
def addSnippet (service : Service τ) (fuel : Nat) (xml : Bytes) (snippet : Snippet τ) :
    Outcome PhrasesError Bytes := do
  let text ← .ofOption (format fuel snippet.subtitle.1)
  let xml := xml ++ (ascii "\t\t <snippet text=\"" ++ text ++ ascii "\" ")
  let time ← .ofOption (service.toLongLong snippet.subtitle.2)
  let xml := xml ++ (ascii "time=\"" ++ decimalInt time ++ ascii "\" ")
  let xml := xml ++ ascii ">\n"
  let xml := snippet.selections.foldl addSelection xml
  return xml ++ ascii "\t\t</snippet>\n"

/-- `snippets_num`. -/
def snippetsNum : UInt32 := 3

section

variable [LinearOrder τ] [Zero τ]

/-- The body of the loop over the documents. -/
def addDoc (service : Service τ) (fuel : Nat) (query : Bytes) (xml : Bytes) (docId : UInt32) :
    Outcome PhrasesError Bytes := do
  let doc ← .ofOption (service.getDoc docId)
  let xml := xml ++ (ascii "\t <result link=\"https://www.youtube.com/watch?v=" ++ doc.videoId ++
    ascii "\" ")
  let title ← .ofOption (format fuel doc.title)
  let xml := xml ++ (ascii "title=\"" ++ title ++ ascii "\" ")
  let xml := xml ++ ascii "description=\"\" "
  let xml := xml ++ ascii "> \n"
  let snippets ← service.getSnippets fuel query doc.docId [] snippetsNum
  let xml ← snippets.foldlM (addSnippet service fuel) xml
  return xml ++ ascii "\t </result>"

/-- `i` as a `size_t`. -/
def sizeT (i : Int32) : Nat := i.toInt64.toUInt64.toNat

/-- The loop over the documents, from `i` on. -/
def docsLoop (service : Service τ) (docsId : List UInt32) (query : Bytes) (startDoc endDoc : Int32)
    (fuel : Nat) : Nat → Int32 → Bytes → Outcome PhrasesError Bytes
  | 0, _, _ => .undefined
  | rounds + 1, i, xml =>
    if i < startDoc + endDoc then
      match docsId[sizeT i]? with
      | none => .ok xml
      | some docId => do
        let xml ← addDoc service fuel query xml docId
        docsLoop service docsId query startDoc endDoc fuel rounds (i + 1) xml
    else .ok xml

/-- `MakeXml`; `findOnlyInSubs` is not used. -/
def makeXml (service : Service τ) (fuel : Nat) (docsId : List UInt32) (query : Bytes)
    (startDoc endDoc : Int32) (_findOnlyInSubs : Bool) : Outcome PhrasesError Bytes := do
  let xml := ascii "<?xml version=\"1.0\" encoding=\"utf-16\"?>\n"
  let count := decimal docsId.length
  let xml := xml ++ (ascii "<results totalResultsCount = \"" ++ count ++ ascii "\">\n")
  let xml ← docsLoop service docsId query startDoc endDoc fuel fuel startDoc xml
  return xml ++ ascii "</results>"

/-- What nothing catches. -/
inductive AnswerError where
  | std (e : StdException)
  | phrases (e : PhrasesError)
  deriving DecidableEq, Repr

/-- `Search`: the answer to what was received, and the index as it is left. -/
def search {δ σ ρ : Type} [LinearOrder δ] [LinearOrder σ] [LinearOrder ρ] (service : Service τ)
    (r : Ranks δ σ ρ) (fuel : Nat) (index : InvertIndex) (buff : Bytes) :
    Outcome AnswerError (Bytes × InvertIndex) := do
  let query ← (parseQuery fuel (queryOf buff)).mapException .std
  let (docsId, index) ←
    .ofOption (launchSearcher fuel service.S r index service.env query.toSearch [])
  let answer ← (makeXml service fuel docsId query.toSearch query.startDoc query.endDoc
    query.findOnlyInSubs).mapException .phrases
  return (answer, index)

end

/-! ## Bytes and characters -/

/-- A byte, as the character that the reader takes it for. -/
def charOf (b : UInt8) : Char := Char.ofNat b.toNat

def chars (s : Bytes) : TinyXml2.Str := s.map charOf

@[simp] theorem chars_append (s t : Bytes) : chars (s ++ t) = chars s ++ chars t :=
  List.map_append

/-- What `Format` changes is not in it, and it does not end a C string. -/
structure Plain (s : Bytes) : Prop where
  nul : 0 ∉ s
  symbols : ∀ symbol ∈ entities.map Prod.fst, symbol ∉ s

def url : Bytes := ascii "https://www.youtube.com/watch?v="

/-- The words that the snippets are chosen by. -/
def Service.words (service : Service τ) (query : Bytes) : List Bytes :=
  (service.lib.tokenize query).map service.lib.toLower

section

variable {ε α : Type}

/-- With enough fuel a text is added that writes these nodes. -/
def Adds (f : Nat → Bytes → Outcome ε Bytes) (nodes : List TinyXml2.Node) : Prop :=
  ∃ text, (∃ fuel₀, ∀ fuel, fuel₀ ≤ fuel → ∀ xml, f fuel xml = .ok (xml ++ text)) ∧
    TinyXml2.Writes (chars text) nodes ∧ 0 ∉ text

/-- **A loop adds what its passes add**, one behind the other. -/
theorem Adds.foldlM {f : Nat → Bytes → α → Outcome ε Bytes} {R : α → TinyXml2.Node → Prop}
    {l : List α} (h : ∀ a ∈ l, ∃ node, Adds (fun fuel xml => f fuel xml a) [node] ∧ R a node) :
    ∃ nodes, Adds (fun fuel xml => l.foldlM (f fuel) xml) nodes ∧ List.Forall₂ R l nodes := by
  induction l with
  | nil =>
    refine ⟨[], ⟨[], ⟨0, fun _ _ xml => ?_⟩, .nil, List.not_mem_nil⟩, .nil⟩
    rw [List.append_nil]
    rfl
  | cons a l ih =>
    obtain ⟨hhead, htail⟩ := List.forall_mem_cons.mp h
    obtain ⟨node, ⟨text, ⟨fuel₁, hadd⟩, hwrites, hclean⟩, hR⟩ := hhead
    obtain ⟨nodes, ⟨texts, ⟨fuel₂, hadds⟩, hwrites', hclean'⟩, hRs⟩ := ih htail
    refine ⟨node :: nodes, ⟨text ++ texts, ⟨max fuel₁ fuel₂, fun fuel hfuel xml => ?_⟩, ?_, ?_⟩,
      .cons hR hRs⟩
    · show List.foldlM (f fuel) xml (a :: l) = _
      have hhead : f fuel xml a = _ := hadd fuel ((Nat.le_max_left _ _).trans hfuel) xml
      have htail : List.foldlM (f fuel) (xml ++ text) l = _ :=
        hadds fuel ((Nat.le_max_right _ _).trans hfuel) (xml ++ text)
      rw [List.foldlM_cons, hhead, Outcome.ok_bind, htail, List.append_assoc]
    · rw [chars_append]
      exact hwrites.append hwrites'
    · exact List.not_mem_append hclean hclean'

end

theorem Plain.url {s : Bytes} (h : Plain s) : escapeBy entities (url ++ s) = url ++ s := by
  apply escapeBy_of_notMem
  intro symbol hsymbol hmem
  have hurl : ∀ symbol ∈ entities.map Prod.fst, symbol ∉ Listener.url := by
    decide +kernel
  exact (List.mem_append.mp hmem).elim (hurl symbol hsymbol) (h.symbols symbol hsymbol)

variable [LinearOrder τ] [Zero τ]

/-- `totalResultsCount`, and a node for every document that is listed. -/
def Page (total : Nat) (nodes : List TinyXml2.Node) (page : Bytes) : Prop :=
  ∃ fuel₀, ∀ fuel, fuel₀ ≤ fuel → TinyXml2.parse fuel (chars page) =
    .ok [.declaration "xml version=\"1.0\" encoding=\"utf-16\"".toList,
      .element "results".toList [("totalResultsCount".toList, chars (decimal total))] nodes]

end Amigos.Listener
