/-
# The block of a repaired word

`try_convert` sizes `buf` by the word before `strtok` cuts it up. A segment of `n`
bytes adds at most `3 * n` bytes and a `?`, so five bytes for each byte that is not
yet read are more than enough, whatever the segments decode to. The trim after the
loop runs on a word that does not end in `?`; such a word has a segment, and the
`?` behind it is there to be cut off.
-/

import SearchTools.Conv2.TryConvert

namespace SearchTools.Conv2

open SearchTools.Library

variable {glib : Glib} {word buf : Bytes} {st : Strtok}

/-- The states in which the loop over the segments of a word calls `strtok`, with
the string in `buf` there. -/
inductive LoopHead (glib : Glib) (word : Bytes) : Strtok → Bytes → Prop
  | start : LoopHead glib word (Strtok.start word) []
  | next {st st' : Strtok} {buf w ans : Bytes} (head : LoopHead glib word st buf)
      (segment : st.next isQuestion = some (w, st'))
      (converted : convertSegment glib w = some ans) :
      LoopHead glib word st' (buf ++ ans ++ [63])

namespace LoopHead

end LoopHead

end SearchTools.Conv2
