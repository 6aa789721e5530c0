/-! # The release of the library -/

namespace MinCostFlow

def version : String := "0.1.0"

end MinCostFlow
