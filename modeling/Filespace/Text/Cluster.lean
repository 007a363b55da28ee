import Filespace.Text.Cluster.Class

/-!
# Clusters

A cluster is a stretch of characters that a reader takes for one. Text is cut into clusters from the front:
whether the next character still belongs to the cluster depends on its class and on what the cluster ends with
(`Context`).

Main statement: nothing is lost or moved (`flatten_clusters`), and no cluster is empty (`ne_nil_of_mem_clusters`).
-/

namespace Filespace.Text

/-- What is known of the characters before a place. -/
structure Context where
  /-- The class of the last one. -/
  last : Class
  /-- Do they end with an odd number of letters of flags? -/
  oddFlags : Bool
  /-- Do they end with a picture, maybe with marks? -/
  picture : Bool
  /-- Do they end with such a picture and a joiner? -/
  joined : Bool
  /-- Do they end with a consonant, maybe with marks and linkers? -/
  consonant : Bool
  /-- Is there a linker after that consonant? -/
  linked : Bool

namespace Context

def start (k : Class) : Context where
  last := k
  oddFlags := k = .flag
  picture := k = .picture
  joined := false
  consonant := k = .consonant
  linked := false

def next (x : Context) (k : Class) : Context where
  last := k
  oddFlags := k = .flag && !x.oddFlags
  picture := k = .picture || (x.picture && (k = .mark || k = .linker || k = .breaker))
  joined := k = .joiner && x.picture
  consonant := k = .consonant || (x.consonant && (k = .mark || k = .linker || k = .joiner))
  linked := x.consonant && (k = .linker || (x.linked && (k = .mark || k = .joiner)))

def isAlone (k : Class) : Bool := k = .control || k = .carriageReturn || k = .lineFeed

/-- May the second class follow the first within one syllable? -/
def continuesSyllable : Class → Class → Bool
  | .onset, .onset | .onset, .nucleus | .onset, .openSyllable | .onset, .closedSyllable => true
  | .openSyllable, .nucleus | .openSyllable, .coda | .nucleus, .nucleus | .nucleus, .coda => true
  | .closedSyllable, .coda | .coda, .coda => true
  | _, _ => false

/-- Does a character of the class still belong to the cluster? -/
def joins (x : Context) (k : Class) : Bool :=
  if x.last = .carriageReturn ∧ k = .lineFeed then true
  else if isAlone x.last || isAlone k then false
  else if continuesSyllable x.last k || x.last = .leading then true
  else match k with
    | .mark | .breaker | .linker | .joiner | .spacing => true
    | .consonant => x.linked
    | .picture => x.joined
    | .flag => x.oddFlags
    | _ => false

end Context

/-- A character in front of the first cluster. -/
def growFirst (c : Char) : List (List Char) → List (List Char)
  | [] => [[c]]
  | p :: ps => (c :: p) :: ps

/-- The clusters of what follows given characters. The first one is the rest of theirs, maybe empty. -/
def clustersAfter (x : Context) : List Char → List (List Char)
  | [] => [[]]
  | c :: cs =>
    (if x.joins (classOf c) then [] else [[]]) ++ growFirst c (clustersAfter (x.next (classOf c)) cs)

def clusters : List Char → List (List Char)
  | [] => []
  | c :: cs => growFirst c (clustersAfter (.start (classOf c)) cs)

theorem flatten_growFirst (c : Char) (ps : List (List Char)) : (growFirst c ps).flatten = c :: ps.flatten := by
  cases ps <;> simp [growFirst]

theorem flatten_clustersAfter (x : Context) (cs : List Char) : (clustersAfter x cs).flatten = cs := by
  induction cs generalizing x with
  | nil => simp [clustersAfter]
  | cons c cs ih =>
    rw [clustersAfter, List.flatten_append, flatten_growFirst, ih]
    split <;> rfl

/-- The clusters put together are the text. -/
theorem flatten_clusters (cs : List Char) : (clusters cs).flatten = cs := by
  cases cs with
  | nil => rfl
  | cons c cs => rw [clusters, flatten_growFirst, flatten_clustersAfter]

/-- A cluster that a character was put in front of is not empty, and the others are as they were. -/
theorem mem_growFirst {c : Char} {ps : List (List Char)} {p : List Char} (h : p ∈ growFirst c ps) :
    p ≠ [] ∨ p ∈ ps.tail := by
  cases ps with
  | nil => simp_all [growFirst]
  | cons q qs =>
    rcases List.mem_cons.1 h with rfl | hq
    · simp
    · exact .inr hq

theorem ne_nil_of_mem_tail_clustersAfter {x : Context} {cs p : List Char}
    (h : p ∈ (clustersAfter x cs).tail) : p ≠ [] := by
  induction cs generalizing x with
  | nil => simp [clustersAfter] at h
  | cons c cs ih =>
    have grown : p ∈ growFirst c (clustersAfter (x.next (classOf c)) cs) := by
      rw [clustersAfter] at h
      split at h
      · exact List.mem_of_mem_tail h
      · exact h
    exact (mem_growFirst grown).elim id ih

/-- Every cluster has a character. -/
theorem ne_nil_of_mem_clusters {cs p : List Char} (h : p ∈ clusters cs) : p ≠ [] := by
  cases cs with
  | nil => simp [clusters] at h
  | cons c cs => exact (mem_growFirst h).elim id ne_nil_of_mem_tail_clustersAfter

end Filespace.Text
