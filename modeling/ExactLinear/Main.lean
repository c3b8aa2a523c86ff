import ExactLinear.CommandLine

/-! # Main program

Reads the whole input, runs the command line on it, and writes what it answers.
-/

namespace ExactLinear

/-- The bytes that a stream still holds. -/
def readAll (stream : IO.FS.Stream) : IO ByteArray := do
  let mut bytes := ByteArray.empty
  repeat
    let chunk ← stream.read 65536
    if chunk.isEmpty then break
    bytes := bytes ++ chunk
  return bytes

end ExactLinear

def main (arguments : List String) : IO UInt32 := do
  let input ← ExactLinear.readAll (← IO.getStdin)
  let answer := ExactLinear.CommandLine.run arguments input.toList
  (← IO.getStdout).putStr answer.output
  (← IO.getStderr).putStr answer.errors
  return answer.status.toUInt32
