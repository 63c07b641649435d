import Reparam.Text.CaseTable

/-! Lowercasing of a text. All letters but two are mapped on their own: the dotted capital I leaves
its dot behind as a mark, and a capital sigma at the end of a word becomes a final sigma. -/
namespace Reparam.Text

def inRanges (ranges : List (Nat × Nat)) (c : Char) : Bool :=
  ranges.any fun (low, high) => low ≤ c.toNat && c.toNat ≤ high

def isCased (c : Char) : Bool := inRanges casedRanges c

def isCaseIgnorable (c : Char) : Bool := inRanges caseIgnorableRanges c

/-- The small letter of a character, which is the character itself if it has none. -/
def smallLetter (c : Char) : Char :=
  let n := c.toNat
  if alternatingCapitals.any fun (low, high) => low ≤ n && n ≤ high && (n - low) % 2 == 0 then
    Char.ofNat (n + 1)
  else
    match shiftedCapitals.find? fun (low, high, _) => low ≤ n && n ≤ high with
    | some (_, _, distance) => Char.ofNat (n + distance).toNat
    | none => c

/-- The first character that does not have to be passed over is a letter with case. -/
def startsCased (cs : List Char) : Bool :=
  match cs.dropWhile isCaseIgnorable with
  | [] => false
  | c :: _ => isCased c

/-- A sigma is final if a letter stands before it and none after it. -/
def smallSigma (before after : List Char) : Char :=
  if startsCased before && !startsCased after then 'ς' else 'σ'

/-- Lowercases what follows `before`, which holds the text so far from its end to its start. -/
def lowercaseAfter (before : List Char) : List Char → List Char
  | [] => []
  | c :: rest =>
    let small :=
      if c = 'Σ' then [smallSigma before rest]
      else if c = 'İ' then ['i', '\u0307']
      else [smallLetter c]
    small ++ lowercaseAfter (c :: before) rest

def lowercase (cs : List Char) : List Char := lowercaseAfter [] cs

end Reparam.Text
